import Xv6.Kernel.PipeSleepers
import Xv6.Lib.Ring

/-! The console is a line editor in front of a queue: the ring of `cons` holds what the editing
rules make of the characters typed and the bytes taken, however often its counters wrap. -/

namespace Xv6.Kernel

open Transition Function UInt32

open List hiding next

variable {n : Nat}

/-- What happens at the console: a character comes in, a reader gets a byte, or a reader gets an
end of file. -/
inductive Event
  | key (c : UInt8)
  | byte (c : UInt8)
  | eof

def Event.ofByte (c : UInt8) : Event := if c = Console.ctrlD then .eof else .byte c

/-- The event takes something out of the console. -/
def Event.out : Event → Bool
  | key _ => false
  | byte _ | eof => true

/-- The line editor: the bytes committed so far, the line being edited, and how many of the
committed bytes were taken. -/
structure Editor where
  committed : List UInt8
  line : List UInt8
  taken : Nat

namespace Editor

variable (ed : Editor)

def unread : List UInt8 := ed.committed.drop ed.taken

/-- A character edits the line, or is appended while there is room; a newline, Ctrl-D or the last
place commits it. -/
def key (c : UInt8) : Editor :=
  if c = Console.ctrlP ∨ c = Console.ctrlC then ed
  else if c = Console.ctrlU then { ed with line := [] }
  else if c = Console.ctrlH ∨ c = Console.delete then { ed with line := ed.line.dropLast }
  else if c ≠ 0 ∧ ed.unread.length + ed.line.length < inputBufSize then
    let c := if c = Console.carriageReturn then Console.newline else c
    let line := ed.line ++ [c]
    if c = Console.newline ∨ c = Console.ctrlD ∨
        ed.unread.length + line.length = inputBufSize then
      { ed with committed := ed.committed ++ line, line := [] }
    else { ed with line := line }
  else ed

def take : Editor := { ed with taken := ed.taken + 1 }

def next : Event → Editor
  | .key c => ed.key c
  | .byte _ | .eof => ed.take

end Editor

def replay (history : List Event) : Editor := history.foldl Editor.next ⟨[], [], 0⟩

theorem replay_append (history events : List Event) :
    replay (history ++ events) = events.foldl Editor.next (replay history) :=
  foldl_append ..

theorem Editor.committed_next (ed : Editor) (ev : Event) :
    ed.committed <+: (ed.next ev).committed := by
  cases ev with
  | key c =>
    show ed.committed <+: (ed.key c).committed
    unfold Editor.key
    dsimp only
    repeat' split
    all_goals first | exact prefix_rfl | exact prefix_append _ _
  | byte | eof => exact prefix_rfl

@[simp] theorem Editor.taken_key (ed : Editor) (c : UInt8) : (ed.key c).taken = ed.taken := by
  unfold Editor.key
  dsimp only
  repeat' split
  all_goals rfl

theorem committed_replay_append (history events : List Event) :
    (replay history).committed <+: (replay (history ++ events)).committed := by
  rw [replay_append]
  generalize replay history = ed
  induction events generalizing ed with
  | nil => exact prefix_rfl
  | cons ev events ih => exact (ed.committed_next ev).trans (ih _)

namespace Console

/-- The console holds what the editor says: the ring has the unread bytes and then the line. -/
structure Shows (cons : Console) (ed : Editor) : Prop where
  r : cons.r = UInt32.ofNat ed.taken
  w : cons.w = UInt32.ofNat ed.committed.length
  e : cons.e = UInt32.ofNat (ed.committed.length + ed.line.length)
  taken : ed.taken ≤ ed.committed.length
  room : ed.unread.length + ed.line.length ≤ inputBufSize
  ring : Ring.contents cons.buf ed.taken (ed.unread.length + ed.line.length) = ed.unread ++ ed.line
  plain : newline ∉ ed.line

theorem slot_ofNat (i : Nat) : slot (UInt32.ofNat i) = Ring.cell inputBufSize i := by
  have wrap : inputBufSize ∣ 2 ^ 32 := by decide
  show Ring.cell inputBufSize (UInt32.ofNat i).toNat = _
  rw [toNat_ofNat', Ring.cell_mod wrap]

theorem toNat_ofNat_sub {i j : Nat} (le : i ≤ j) (near : j - i < 2 ^ 32) :
    (UInt32.ofNat j - UInt32.ofNat i).toNat = j - i := by
  rw [UInt32.toNat_sub, UInt32.toNat_ofNat', UInt32.toNat_ofNat']
  omega

end Console

namespace Editor

variable {ed : Editor}

theorem length_unread : ed.unread.length = ed.committed.length - ed.taken := length_drop

theorem unread_append (h : ed.taken ≤ ed.committed.length) (more : List UInt8) :
    ed.committed.drop ed.taken ++ more = (ed.committed ++ more).drop ed.taken :=
  (drop_append_of_le_length h).symm

end Editor

namespace Console.Shows

variable {cons : Console} {ed : Editor}

section

variable (h : Shows cons ed)

include h

theorem sub_r :
    (cons.w - cons.r).toNat = ed.unread.length ∧
    (cons.e - cons.w).toNat = ed.line.length ∧
    (cons.e - cons.r).toNat = ed.unread.length + ed.line.length := by
  have room := h.room
  have taken := h.taken
  have unread := ed.length_unread
  have small : inputBufSize < 2 ^ 32 := by decide
  rw [h.r, h.w, h.e, Console.toNat_ofNat_sub taken (by omega),
    Console.toNat_ofNat_sub (by omega) (by omega), Console.toNat_ofNat_sub (by omega) (by omega)]
  omega

theorem getLast (some : ed.line ≠ []) :
    cons.buf (slot (cons.e - 1)) = ed.line.getLast some := by
  have pos : 0 < ed.line.length := length_pos_iff.mpr some
  have unread := ed.length_unread
  have taken := h.taken
  have index : cons.e - 1 =
      UInt32.ofNat (ed.taken + (ed.unread.length + (ed.line.length - 1))) := by
    rw [h.e, show ed.committed.length + ed.line.length =
      (ed.taken + (ed.unread.length + (ed.line.length - 1))) + 1 by omega, UInt32.ofNat_add]
    exact UInt32.add_sub_cancel _ _
  have last := congrArg (fun xs : List UInt8 => xs[ed.unread.length + (ed.line.length - 1)]?) h.ring
  rw [Ring.contents, getElem?_map, getElem?_range (by omega),
    getElem?_append_right (by omega), Nat.add_sub_cancel_left,
    getElem?_eq_getElem (by omega)] at last
  rw [index, slot_ofNat, getLast_eq_getElem]
  exact Option.some.inj last

theorem erase (some : ed.line ≠ []) :
    Shows { cons with e := cons.e - 1 } { ed with line := ed.line.dropLast } := by
  have pos : 0 < ed.line.length := length_pos_iff.mpr some
  have room := h.room
  refine ⟨h.r, h.w, ?_, h.taken, ?_, ?_, fun mem => h.plain (mem_of_mem_dropLast mem)⟩
  · rw [h.e, length_dropLast, show ed.committed.length + ed.line.length =
      ed.committed.length + (ed.line.length - 1) + 1 by omega, UInt32.ofNat_add]
    exact UInt32.add_sub_cancel _ _
  · show ed.unread.length + ed.line.dropLast.length ≤ inputBufSize
    rw [length_dropLast]
    omega
  · show Ring.contents cons.buf ed.taken (ed.unread.length + ed.line.dropLast.length) =
      ed.unread ++ ed.line.dropLast
    rw [length_dropLast, show ed.unread.length + (ed.line.length - 1) =
      (ed.unread.length + ed.line.length) - 1 by omega, Ring.contents_dropLast, h.ring,
      dropLast_append_of_ne_nil some]

theorem e_eq_w : cons.e = cons.w ↔ ed.line = [] := by
  rw [← length_eq_zero_iff, ← h.sub_r.2.1]
  constructor
  · intro he
    rw [he, sub_self]
    rfl
  · intro zero
    have none : cons.e - cons.w = 0 := UInt32.toNat_inj.mp zero
    rw [← UInt32.sub_add_cancel cons.e cons.w, none, UInt32.zero_add]

theorem backspace :
    Shows cons.backspace { ed with line := ed.line.dropLast } := by
  unfold Console.backspace
  split
  next empty =>
    have nil := h.e_eq_w.mp empty
    rwa [nil, dropLast_nil, ← nil]
  next some => exact h.erase fun nil => some (h.e_eq_w.mpr nil)

theorem killLine :
    Shows (cons.killLine ed.line.length) { ed with line := [] } := by
  generalize hk : ed.line.length = k
  induction k generalizing cons ed with
  | zero =>
    have nil : ed.line = [] := length_eq_zero_iff.mp hk
    rwa [Console.killLine, ← nil]
  | succ k ih =>
    have some : ed.line ≠ [] := by
      rintro nil
      rw [nil] at hk
      cases hk
    have goesOn : cons.buf (slot (cons.e - 1)) ≠ newline := by
      rw [h.getLast some]
      exact fun last => h.plain (last ▸ getLast_mem some)
    rw [Console.killLine, if_neg goesOn]
    have shorter : ed.line.dropLast.length = k := by rw [length_dropLast, hk]; rfl
    have rest := ih (h.erase some) shorter
    exact rest

theorem append (room : ed.unread.length + ed.line.length < inputBufSize) (c : UInt8) :
    Ring.contents (update cons.buf (slot cons.e) c) ed.taken
        (ed.unread.length + (ed.line ++ [c]).length) = ed.unread ++ (ed.line ++ [c]) ∧
    cons.e + 1 = UInt32.ofNat (ed.committed.length + (ed.line ++ [c]).length) := by
  have taken := h.taken
  have unread := ed.length_unread
  constructor
  · rw [h.e, slot_ofNat, show ed.committed.length + ed.line.length =
      ed.taken + (ed.unread.length + ed.line.length) by omega, length_append,
      length_singleton, ← Nat.add_assoc ed.unread.length, Ring.contents_push _ _ _ _ room,
      h.ring, append_assoc]
  · rw [h.e, length_append, length_singleton, ← Nat.add_assoc]
    exact (ofNat_add _ 1).symm

theorem store (plainKey : ¬(c = ctrlP ∨ c = ctrlC)) (noKill : c ≠ ctrlU)
    (noErase : ¬(c = ctrlH ∨ c = delete)) : Shows (cons.store c).1 (ed.key c) := by
  have roomIff : cons.e - cons.r < UInt32.ofNat inputBufSize ↔
      ed.unread.length + ed.line.length < inputBufSize := by
    rw [lt_iff_toNat_lt, h.sub_r.2.2]
    rfl
  unfold Console.store Editor.key
  rw [if_neg plainKey, if_neg noKill, if_neg noErase]
  by_cases accepted : c ≠ 0 ∧ ed.unread.length + ed.line.length < inputBufSize
  · rw [if_pos accepted, if_pos ⟨accepted.1, roomIff.mpr accepted.2⟩]
    have room := accepted.2
    generalize (if c = carriageReturn then newline else c) = c'
    obtain ⟨ring, edit⟩ := h.append room c'
    have length : (ed.line ++ [c']).length = ed.line.length + 1 := length_append
    have taken := h.taken
    have unread := ed.length_unread
    have fullIff : cons.e + 1 - cons.r = UInt32.ofNat inputBufSize ↔
        ed.unread.length + (ed.line ++ [c']).length = inputBufSize := by
      have small : inputBufSize < 2 ^ 32 := by decide
      rw [← UInt32.toNat_inj, edit, h.r, toNat_ofNat_sub (by omega) (by omega),
        show (UInt32.ofNat inputBufSize).toNat = inputBufSize from rfl]
      omega
    by_cases full : c' = newline ∨ c' = ctrlD ∨
        ed.unread.length + (ed.line ++ [c']).length = inputBufSize
    · rw [if_pos full, if_pos (full.imp_right (Or.imp_right fullIff.mpr))]
      have now : (Editor.mk (ed.committed ++ (ed.line ++ [c'])) [] ed.taken).unread =
          ed.unread ++ (ed.line ++ [c']) := (ed.unread_append taken _).symm
      have total : (ed.committed ++ (ed.line ++ [c'])).length =
          ed.committed.length + (ed.line ++ [c']).length := length_append
      refine ⟨h.r, ?_, ?_, ?_, ?_, ?_, not_mem_nil⟩
      · rw [edit, total]
      · show cons.e + 1 = UInt32.ofNat ((ed.committed ++ (ed.line ++ [c'])).length + 0)
        rw [edit, total, Nat.add_zero]
      · show ed.taken ≤ (ed.committed ++ (ed.line ++ [c'])).length
        omega
      · rw [now, length_append]
        show ed.unread.length + (ed.line ++ [c']).length + 0 ≤ inputBufSize
        omega
      · rwa [now, length_append, append_nil]
    · rw [if_neg full, if_neg fun h => full (h.imp_right (Or.imp_right fullIff.mp))]
      refine ⟨h.r, h.w, edit, taken, ?_, ring, ?_⟩
      · show ed.unread.length + (ed.line ++ [c']).length ≤ inputBufSize
        omega
      · rw [mem_append, mem_singleton, not_or]
        exact ⟨h.plain, fun nl => full (.inl nl.symm)⟩
  · rwa [if_neg accepted, if_neg fun h => accepted ⟨h.1, roomIff.mp h.2⟩]

theorem read (some : cons.r ≠ cons.w) :
    ed.committed[ed.taken]? = Option.some (cons.buf (slot cons.r)) ∧
    Shows { cons with r := cons.r + 1 } ed.take := by
  have taken := h.taken
  have unread := ed.length_unread
  have room := h.room
  have less : ed.taken < ed.committed.length := by
    refine lt_of_le_of_ne taken fun eq => some ?_
    rw [h.r, h.w, eq]
  have split : ed.unread = ed.committed[ed.taken] :: ed.take.unread := drop_eq_getElem_cons less
  have length : ed.unread.length = ed.take.unread.length + 1 := by rw [split]; rfl
  have ring := h.ring
  rw [length, Nat.add_right_comm, Ring.contents_pop, split, cons_append] at ring
  obtain ⟨head, tail⟩ := List.cons.inj ring
  refine ⟨?_, ?_, h.w, h.e, less, ?_, tail, h.plain⟩
  · rw [h.r, slot_ofNat, head, getElem?_eq_getElem less]
  · show cons.r + 1 = UInt32.ofNat (ed.taken + 1)
    rw [h.r, ofNat_add]
    rfl
  · show ed.take.unread.length + ed.line.length ≤ inputBufSize
    omega

theorem committed (from_ : ed.taken ≤ i) (below : i < ed.committed.length) :
    ed.committed[i]? = Option.some (cons.buf (slot (UInt32.ofNat i))) := by
  have unread := ed.length_unread
  have at_ := congrArg (fun xs : List UInt8 => xs[i - ed.taken]?) h.ring
  rw [Ring.contents, getElem?_map, getElem?_range (by omega),
    getElem?_append_left (by omega), Editor.unread, getElem?_drop,
    show ed.taken + (i - ed.taken) = i by omega] at at_
  rw [← at_, slot_ofNat, Option.map_some, show ed.taken + (i - ed.taken) = i by omega]

end

end Console.Shows

/-- The kernel with the record of what happened at the console. -/
structure Session (n : Nat) where
  kernel : State n
  history : List Event

/-- What a pass of `consoleread` with `k` bytes to go takes out of the console. -/
def State.taken (s : State n) (target k : Int) (io : Copies) : List Event :=
  if 0 < k ∧ s.cons.r ≠ s.cons.w then
    let c := s.cons.buf (Console.slot s.cons.r)
    if c = Console.ctrlD then (if k < target then [] else [.eof])
    else if io.copyout then [.byte c] else []
  else []

def State.events (s : State n) : Label n → List Event
  | .consoleintr c _ => [.key c]
  | .pass p io =>
    match s.pc p with
    | .loop (.consoleread target k) => s.taken target k io
    | _ => []
  | _ => []

namespace Session

def step (l : Label n) (s : Session n) : Option (Session n) :=
  (Kernel.step l s.kernel).map fun k => ⟨k, s.history ++ s.kernel.events l⟩

def boot (n : Nat) [NeZero n] : Session n := ⟨Kernel.boot n, []⟩

end Session

def Label.pass? : Label n → Option (Fin n × Copies)
  | .pass p io => some (p, io)
  | _ => none

def Pc.consoleread? : Pc n → Bool
  | .loop (.consoleread ..) => true
  | _ => false

/-- The copies of `consoleread` to user space succeed. -/
def ReadsCopy (s : Session n) (l : Label n) : Prop :=
  ∀ a ∈ l.pass?, (s.kernel.pc a.1).consoleread? = true → a.2.copyout = true

instance : DecidableRel (ReadsCopy (n := n)) := fun _ _ =>
  inferInstanceAs (Decidable (∀ _ ∈ _, _))

/-- What a step does to the console. -/
inductive Typed (s : State n) : Label n → State n → Prop
  | same {l s'} (cons : s'.cons = s.cons) (events : s.events l = []) : Typed s l s'
  | key {c cur} : Typed s (.consoleintr c cur) (s.consoleintr c cur)
  | read {p io target k} (at_ : s.pc p = .loop (.consoleread target k)) :
      Typed s (.pass p io) ((s.consolereadPass p target k io).1.goOn p (.consoleread target k)
        (s.consolereadPass p target k io).2)

variable {s : State n} {p : Fin n}

theorem State.goOn_cons : (s.goOn p c next).cons = s.cons := by cases next <;> rfl

variable {io : Copies}

theorem State.pass_cons
    (other : ∀ target k, c ≠ .consoleread target k) : (s.pass p io c).1.cons = s.cons := by
  match c with
  | .wait addr =>
    simp only [State.pass, State.waitPass]
    repeat' split
    all_goals rfl
  | .sleep k ticks0 =>
    simp only [State.pass, State.sleepPass]
    repeat' split
    all_goals rfl
  | .piperead pi k none =>
    simp only [State.pass, State.pipereadWait]
    repeat' split
    all_goals rfl
  | .piperead pi k (some i) =>
    simp only [State.pass, State.pipereadCopy]
    repeat' split
    all_goals rfl
  | .pipewrite pi k i =>
    simp only [State.pass, State.pipewritePass]
    repeat' split
    all_goals rfl
  | .consoleread target k => exact (other target k rfl).elim

theorem State.consolereadPass_cases (s : State n) (p : Fin n) (target k : Int)
    (copies : io.copyout = true) :
    ((s.consolereadPass p target k io).1.cons = s.cons ∧ s.taken target k io = []) ∨
    (s.cons.r ≠ s.cons.w ∧
      (s.consolereadPass p target k io).1.cons = { s.cons with r := s.cons.r + 1 } ∧
      s.taken target k io = [.ofByte (s.cons.buf (Console.slot s.cons.r))]) := by
  unfold State.consolereadPass State.taken Event.ofByte
  by_cases going : 0 < k
  case neg => simp [going]
  by_cases empty : s.cons.r = s.cons.w
  case pos =>
    simp only [going, empty, if_true]
    split <;> simp
  by_cases eof : s.cons.buf (Console.slot s.cons.r) = Console.ctrlD
  case pos =>
    by_cases kept : k < target
    · simp [going, empty, eof, kept]
    · simp [going, empty, eof, kept]
  simp only [going, empty, eof, copies, not_true, if_true, if_false]
  split <;> simp [empty]

theorem State.taken_eof (eof : s.taken target k io = [.eof]) (le : k ≤ target) :
    (s.consolereadPass p target k io).2 = .ret (.val 0) := by
  unfold State.taken at eof
  split at eof
  case isFalse => cases eof
  next some =>
    dsimp only at eof
    split at eof
    case isFalse => split at eof <;> cases eof
    next ctrlD =>
      split at eof
      · cases eof
      next whole =>
        obtain rfl : k = target := by omega
        unfold State.consolereadPass
        simp only [some.1, some.2, ctrlD, if_true, if_false, Int.sub_self]
        rfl

theorem State.events_read (at_ : s.pc p = .loop (.consoleread target k)) :
    s.events (.pass p io) = s.taken target k io := by
  show (match s.pc p with
    | .loop (.consoleread target k) => s.taken target k io
    | _ => []) = _
  rw [at_]

variable {l : Label n}

theorem Step.typed (st : Step s l s') : Typed s l s' := by
  cases st with
  | @pass p io c s1 next at_ run eq =>
    obtain ⟨rfl, rfl⟩ := Prod.mk.inj eq.symm
    by_cases mine : ∃ target k, c = .consoleread target k
    · obtain ⟨target, k, rfl⟩ := mine
      exact .read at_
    · have other : ∀ target k, c ≠ .consoleread target k := fun target k hc => mine ⟨target, k, hc⟩
      refine .same (State.goOn_cons.trans (State.pass_cons other)) ?_
      show (match s.pc p with
        | .loop (.consoleread target k) => s.taken target k io
        | _ => []) = []
      rw [at_]
      cases c with
      | consoleread target k => exact (other target k rfl).elim
      | _ => rfl
  | consoleintr lock run => exact .key
  | fork free =>
    refine .same ?_ rfl
    unfold State.fork
    split
    · rfl
    · split <;> rfl
  | threadCreate free =>
    refine .same ?_ rfl
    unfold State.threadCreate
    repeat' split
    all_goals rfl
  | threadJoin free =>
    refine .same ?_ rfl
    unfold State.threadJoin
    repeat' split
    all_goals rfl
  | pick run =>
    refine .same ?_ rfl
    unfold State.pick
    split <;> rfl
  | pipeclose lock idle =>
    refine .same ?_ rfl
    unfold State.pipeclose
    split <;> rfl
  | _ => exact .same rfl rfl

theorem Console.Shows.consoleintr (h : s.cons.Shows ed) (c : UInt8)
    (cur : Option (Fin n)) : (s.consoleintr c cur).cons.Shows (ed.key c) := by
  unfold State.consoleintr
  by_cases hP : c = ctrlP
  · rwa [if_pos hP, Editor.key, if_pos (.inl hP)]
  rw [if_neg hP]
  by_cases hU : c = ctrlU
  · have other : ¬(c = ctrlP ∨ c = ctrlC) := by rw [hU]; decide
    rw [if_pos hU, Editor.key, if_neg other, if_pos hU]
    rw [h.sub_r.2.1]
    exact h.killLine
  rw [if_neg hU]
  by_cases hH : c = ctrlH ∨ c = delete
  · have other : ¬(c = ctrlP ∨ c = ctrlC) := by rcases hH with rfl | rfl <;> decide
    rw [if_pos hH, Editor.key, if_neg other, if_neg hU, if_pos hH]
    exact h.backspace
  rw [if_neg hH]
  by_cases hC : c = ctrlC
  · rw [if_pos hC, Editor.key, if_pos (.inr hC)]
    cases cur <;> exact h
  rw [if_neg hC]
  have stored := h.store (not_or.mpr ⟨hP, hC⟩) hU hH
  dsimp only
  split <;> exact stored

/-- The editor that the record replays to is what the console shows, and what was taken out is what
was committed. -/
structure Recorded (s : Session n) : Prop where
  shown : s.kernel.cons.Shows (replay s.history)
  out : s.history.filter Event.out =
    ((replay s.history).committed.take (replay s.history).taken).map Event.ofByte

theorem Recorded.take {s : Session n} {k : State n} (h : Recorded s)
    (some : s.kernel.cons.r ≠ s.kernel.cons.w)
    (cons : k.cons = { s.kernel.cons with r := s.kernel.cons.r + 1 })
    (event : ev = .ofByte (s.kernel.cons.buf (Console.slot s.kernel.cons.r))) :
    Recorded ⟨k, s.history ++ [ev]⟩ := by
  obtain ⟨first, after⟩ := h.shown.read some
  have out : ev.out = true := by
    rw [event, Event.ofByte]
    split <;> rfl
  have next : replay (s.history ++ [ev]) = (replay s.history).take := by
    rw [replay_append]
    cases ev with
    | key c => cases out
    | byte c | eof => rfl
  constructor
  · rw [next]
    rwa [cons]
  · rw [next, filter_append, h.out, filter_cons_of_pos out, filter_nil]
    show _ = ((replay s.history).committed.take ((replay s.history).taken + 1)).map Event.ofByte
    rw [take_add_one, first, map_append, event]
    rfl

theorem Recorded.step {s s' : Session n} (h : Recorded s) (ok : ReadsCopy s l)
    (hstep : Session.step l s = some s') : Recorded s' := by
  obtain ⟨k, hk, rfl⟩ := Option.map_eq_some_iff.mp hstep
  have same : ∀ k : State n, k.cons = s.kernel.cons → Recorded ⟨k, s.history ++ []⟩ := by
    intro k cons
    rw [append_nil]
    refine ⟨?_, h.out⟩
    rw [cons]
    exact h.shown
  cases (step_sound hk).typed with
  | same cons events =>
    rw [events]
    exact same k cons
  | @key c cur =>
    constructor
    · rw [replay_append]
      exact h.shown.consoleintr c cur
    · have next : replay (s.history ++ [Event.key c]) = (replay s.history).key c :=
        replay_append _ _
      obtain ⟨more, committed⟩ := (replay s.history).committed_next (.key c)
      replace committed : _ ++ more = ((replay s.history).key c).committed := committed
      show (s.history ++ [Event.key c]).filter Event.out =
        ((replay (s.history ++ [Event.key c])).committed.take
          (replay (s.history ++ [Event.key c])).taken).map Event.ofByte
      rw [next, filter_append, filter_cons_of_neg Bool.false_ne_true, filter_nil,
        append_nil, h.out, ← committed, Editor.taken_key,
        take_append_of_le_length h.shown.taken]
  | @read p io target k at_ =>
    have copies : io.copyout = true := ok (p, io) rfl (by rw [at_]; rfl)
    rw [State.events_read at_]
    rcases s.kernel.consolereadPass_cases p target k copies with
      ⟨cons, nothing⟩ | ⟨some, cons, event⟩
    · rw [nothing]
      exact same _ (State.goOn_cons.trans cons)
    · rw [event]
      exact h.take some (State.goOn_cons.trans cons) rfl

/-- A reader has at most as much to go as it asked for. -/
def State.Reading (s : State n) : Prop :=
  ∀ p target k, (s.pc p).call = some (.consoleread target k) → k ≤ target

theorem State.Reading.step (h : s.Reading) (places : s.Places) (st : Step s l s') : s'.Reading := by
  intro q target k hq
  cases st.shift places q with
  | stays pc sleep =>
    rw [pc] at hq
    exact h q target k hq
  | goes out free awake call =>
    rcases call _ hq with ⟨starts, -⟩ | before
    · exact (show target = k from starts).ge
    · exact h q target k before
  | acquires at_ after | sleeps at_ after =>
    rw [after] at hq
    refine h q target k ?_
    rwa [at_]
  | blocks at_ after chan =>
    rw [after] at hq
    cases hq
  | passes label =>
    subst label
    cases st with
    | @pass p io c s1 next at_ run eq =>
      have frame := State.pass_frame eq
      have was : (s.pc q).call = some c := by rw [at_]; rfl
      cases next with
      | ret r =>
        rw [show (s1.goOn q c (.ret r)).pc q = .user r from update_self ..] at hq
        cases hq
      | sleep c' =>
        rw [show (s1.goOn q c (.sleep c')).pc q = .tested c' from update_self ..,
          (frame.sleep c' rfl).1] at hq
        exact h q target k (was.trans hq)
      | again c' =>
        rw [show (s1.goOn q c (.again c')).pc q = .loop c' from update_self ..] at hq
        obtain rfl : c' = .consoleread target k := Option.some.inj hq
        have lk := (frame.again _ rfl).1
        match c, lk with
        | .consoleread target' k', _ =>
          have le := h q target' k' was
          have next := congrArg Prod.snd eq
          simp only [State.pass, State.consolereadPass] at next
          repeat' split at next
          all_goals cases next
          omega

/-- If the copies of `consoleread` succeed, the counters stand in the order r, w, e, at most
`INPUT_BUF_SIZE` apart modulo 2^32; the ring holds the committed bytes from `r` on, as the editing
rules give them; the readers got what was committed, byte for byte, with one end of file for each
Ctrl-D; and what was committed stays. -/
theorem console_line_fifo [NeZero n] {s : Session n}
    (run : Transition.Reach Session.step ReadsCopy (Session.boot n) s) :
    ((s.kernel.cons.w - s.kernel.cons.r).toNat + (s.kernel.cons.e - s.kernel.cons.w).toNat =
        (s.kernel.cons.e - s.kernel.cons.r).toNat ∧
      (s.kernel.cons.e - s.kernel.cons.r).toNat ≤ inputBufSize) ∧
    (s.kernel.cons.r = UInt32.ofNat (replay s.history).taken ∧
      s.kernel.cons.w = UInt32.ofNat (replay s.history).committed.length ∧
      s.kernel.cons.e = UInt32.ofNat
        ((replay s.history).committed.length + (replay s.history).line.length)) ∧
    (∀ i, (replay s.history).taken ≤ i → i < (replay s.history).committed.length →
      (replay s.history).committed[i]? =
        some (s.kernel.cons.buf (Console.slot (UInt32.ofNat i)))) ∧
    s.history.filter Event.out =
      ((replay s.history).committed.take (replay s.history).taken).map Event.ofByte ∧
    (∀ l s', ReadsCopy s l → Session.step l s = some s' → s'.history = s.history ++ [.eof] →
      ∃ p io, l = .pass p io ∧ s'.kernel.pc p = .user (.val 0)) ∧
    ∀ s', Transition.Reach Session.step ReadsCopy s s' →
      (replay s.history).committed <+: (replay s'.history).committed := by
  obtain ⟨recorded, places, reading⟩ : Recorded s ∧ s.kernel.Places ∧ s.kernel.Reading :=
    run.invariant (I := fun s : Session n => Recorded s ∧ s.kernel.Places ∧ s.kernel.Reading)
      ⟨⟨⟨rfl, rfl, rfl, Nat.zero_le _, Nat.zero_le _, rfl, not_mem_nil⟩, rfl⟩,
        ⟨fun q => .of_user rfl nofun, nofun⟩, nofun⟩ fun s l s' h ok hstep => by
      obtain ⟨k, hk, rfl⟩ := Option.map_eq_some_iff.mp hstep
      have st := step_sound hk
      exact ⟨h.1.step ok hstep, h.2.1.step st, h.2.2.step h.2.1 st⟩
  have shown := recorded.shown
  obtain ⟨unread, line, all⟩ := shown.sub_r
  refine ⟨⟨by rw [unread, line, all], by rw [all]; exact shown.room⟩,
    ⟨shown.r, shown.w, shown.e⟩, fun i from_ below => shown.committed from_ below,
    recorded.out, fun l s' ok hstep eof => ?_, fun s' later => ?_⟩
  · obtain ⟨k, hk, rfl⟩ := Option.map_eq_some_iff.mp hstep
    have events : s.kernel.events l = [.eof] := append_cancel_left eof
    cases (step_sound hk).typed with
    | same cons nothing =>
      rw [nothing] at events
      cases events
    | key => cases events
    | @read p io target k at_ =>
      rw [State.events_read at_] at events
      have le := reading p target k (by rw [at_]; rfl)
      refine ⟨p, io, rfl, ?_⟩
      rw [State.taken_eof events le]
      exact update_self ..
  · refine later.invariant
      (I := fun s' : Session n => (replay s.history).committed <+: (replay s'.history).committed)
      prefix_rfl fun t l t' h _ hstep => ?_
    obtain ⟨k, -, rfl⟩ := Option.map_eq_some_iff.mp hstep
    exact h.trans (committed_replay_append t.history _)

/-- `ls`, with a typo that is erased, and Ctrl-D; three reads, the last of which gets the end of
file. -/
def typesAndReads : List (Label nproc) :=
  [.pick 0, .consoleintr 108 (some 0), .consoleintr 120 (some 0),
    .consoleintr Console.delete (some 0), .consoleintr 115 (some 0),
    .consoleintr Console.ctrlD (some 0), .call 0 (.consoleread 1 1), .acquire 0,
    .pass 0 ⟨none, true⟩, .pass 0 ⟨none, true⟩, .call 0 (.consoleread 9 9), .acquire 0,
    .pass 0 ⟨none, true⟩, .pass 0 ⟨none, true⟩, .call 0 (.consoleread 9 9), .acquire 0,
    .pass 0 ⟨none, true⟩]

theorem console_line_fifo_eof : ∃ s : Session nproc,
    Transition.Reach Session.step ReadsCopy (Session.boot nproc) s ∧
    (replay s.history).committed = [108, 115, Console.ctrlD] ∧
    s.history.filter Event.out = [.byte 108, .byte 115, .eof] := by
  obtain ⟨s, reach, committed, taken⟩ : ∃ s : Session nproc,
      Transition.Reach Session.step ReadsCopy (Session.boot nproc) s ∧
      (replay s.history).committed = [108, 115, Console.ctrlD] ∧ (replay s.history).taken = 3 :=
    exists_reach Session.step ReadsCopy (Session.boot nproc) typesAndReads
      (P := fun s : Session nproc =>
        (replay s.history).committed = [108, 115, Console.ctrlD] ∧ (replay s.history).taken = 3)
      (by decide +kernel)
  have out := (console_line_fifo reach).2.2.2.1
  rw [committed, taken] at out
  exact ⟨s, reach, committed, out⟩

end Xv6.Kernel
