import Xv6.Bio.System

/-! The program of `commit`: which buffers it holds at each point, and what each of its instructions
finds there. -/

namespace Xv6.Bio

open List hiding tail

open Log (Geometry)

/-- The blocks whose buffers are held before the program is run, read off from what it releases. -/
def holds : List Instr → List Nat
  | [] => []
  | .bread b :: rest => (holds rest).filter (· ≠ b)
  | .brelse b :: rest => b :: holds rest
  | _ :: rest => holds rest

/-- The program copies something to block `b`. -/
def Writes (b : Nat) (prog : List Instr) : Prop := ∃ src, .copy b src ∈ prog

/-- What the instructions of a program rely on, with `lh` in the header: they work on held buffers,
copy to or from the log block of a logged block, write a home block while it is pinned and unpin it
once, and leave the header empty. -/
def Fits (g : Geometry) : List Nat → List Instr → Prop
  | lh, [] => lh = []
  | lh, .bread b :: rest => b ∈ holds rest ∧ Fits g lh rest
  | lh, .copy dst src :: rest =>
    (dst ∈ holds rest ∧ src ∈ holds rest ∧ (dst ∈ lh → .bunpin dst ∈ rest) ∧
      ∃ t, (lh[t]? = some src ∧ dst = g.start + t + 1) ∨
        (lh[t]? = some dst ∧ src = g.start + t + 1 ∧ ¬Writes src rest)) ∧ Fits g lh rest
  | lh, .putHead :: rest => g.start ∈ holds rest ∧ Fits g lh rest
  | lh, .bunpin b :: rest => (b ∈ holds rest ∧ b ∈ lh ∧ .bunpin b ∉ rest) ∧ Fits g lh rest
  | lh, .brelse b :: rest => b ∉ holds rest ∧ Fits g lh rest
  | lh, .clear :: rest => (∀ b ∈ lh, ¬Writes b rest ∧ .bunpin b ∉ rest) ∧ Fits g [] rest

variable {g : Geometry} {lh bs : List Nat} {rest : List Instr} {instr : Instr} {b : Nat}

@[simp] theorem not_writes_nil : ¬Writes b [] := fun ⟨_, h⟩ => by cases h

theorem writes_cons : Writes b (instr :: rest) ↔ (∃ src, instr = .copy b src) ∨ Writes b rest := by
  simp only [Writes, mem_cons, exists_or, eq_comm]

@[simp] theorem writes_append : Writes b (prog ++ rest) ↔ Writes b prog ∨ Writes b rest := by
  simp only [Writes, mem_append, exists_or]

@[simp] theorem writes_copy : Writes b (.copy dst src :: rest) ↔ dst = b ∨ Writes b rest := by
  rw [writes_cons]; simp

@[simp] theorem writes_bread : Writes b (.bread c :: rest) ↔ Writes b rest := by
  rw [writes_cons]; simp

@[simp] theorem writes_putHead : Writes b (.putHead :: rest) ↔ Writes b rest := by
  rw [writes_cons]; simp

@[simp] theorem writes_bunpin : Writes b (.bunpin c :: rest) ↔ Writes b rest := by
  rw [writes_cons]; simp

@[simp] theorem writes_brelse : Writes b (.brelse c :: rest) ↔ Writes b rest := by
  rw [writes_cons]; simp

@[simp] theorem writes_clear : Writes b (.clear :: rest) ↔ Writes b rest := by
  rw [writes_cons]; simp

theorem Fits.bunpin_mem (h : Fits g lh prog) (hb : b ∈ lh)
    (hw : Writes b prog) : .bunpin b ∈ prog := by
  induction prog with
  | nil => exact absurd hw not_writes_nil
  | cons instr rest ih =>
    cases instr with
    | copy dst src =>
      rcases writes_copy.mp hw with rfl | later
      · exact mem_cons_of_mem _ (h.1.2.2.1 hb)
      · exact mem_cons_of_mem _ (ih h.2 later)
    | clear => exact absurd (writes_clear.mp hw) (h.1 b hb).1
    | bread c => exact mem_cons_of_mem _ (ih h.2 (writes_bread.mp hw))
    | putHead => exact mem_cons_of_mem _ (ih h.2 (writes_putHead.mp hw))
    | bunpin c => exact mem_cons_of_mem _ (ih h.2 (writes_bunpin.mp hw))
    | brelse c => exact mem_cons_of_mem _ (ih h.2 (writes_brelse.mp hw))

theorem holds_writeHead (start : Nat) (hh : holds rest = []) :
    holds (writeHead start ++ rest) = [] := by
  simp [writeHead, holds, hh]

theorem fits_writeHead (h : Fits g lh rest) (hh : holds rest = []) :
    Fits g lh (writeHead g.start ++ rest) := by
  simp only [writeHead, cons_append, nil_append, Fits, holds, hh]
  exact ⟨by simp, by simp, by simp, h⟩

theorem not_writes_writeHead : ¬Writes b (writeHead start) := by
  simp [writeHead]

theorem mem_installTrans (start tail : Nat) (hb : b ∈ bs) :
    Writes b (installTrans start tail bs) ∧ .bunpin b ∈ installTrans start tail bs := by
  induction bs generalizing tail with
  | nil => cases hb
  | cons c bs ih =>
    rcases mem_cons.mp hb with rfl | hb
    · simp [installTrans]
    · have := ih (tail + 1) hb
      simp [installTrans, this]

theorem of_mem_installTrans : (Writes b (installTrans start tail bs) → b ∈ bs) ∧
      (.bunpin b ∈ installTrans start tail bs → b ∈ bs) := by
  induction bs generalizing tail with
  | nil => simp [installTrans]
  | cons c bs ih =>
    simp only [installTrans, writes_bread, writes_copy, writes_bunpin, writes_brelse,
      mem_cons, reduceCtorEq, false_or, Instr.bunpin.injEq, eq_comm]
    exact ⟨Or.imp_right ih.1, Or.imp_right ih.2⟩

/-- The blocks of a transaction: distinct home blocks, no more than the log has room for. -/
structure Logged (g : Geometry) (lh : List Nat) : Prop where
  nodup : lh.Nodup
  home : ∀ b ∈ lh, ¬g.Region b
  room : lh.length < g.size

theorem Logged.region (h : Logged g lh) (ht : lh[t]? = some b) : g.Region (g.start + t + 1) := by
  have := h.room
  have := (List.getElem?_eq_some_iff.mp ht).1
  exact ⟨by omega, by omega⟩

theorem Logged.home_ne (h : Logged g lh) (e : lh = pre ++ b :: bs) :
    b ∈ lh ∧ lh[pre.length]? = some b ∧ g.Region (g.start + pre.length + 1) ∧
      g.start + pre.length + 1 ≠ b := by
  have hb : b ∈ lh := by simp [e]
  have hget : lh[pre.length]? = some b := by simp [e]
  have region := h.region hget
  exact ⟨hb, hget, region, fun hn => h.home b hb (hn ▸ region)⟩

theorem fits_clear (g : Geometry) (lh : List Nat) :
    Fits g lh (.clear :: writeHead g.start) ∧ holds (.clear :: writeHead g.start) = [] := by
  refine ⟨⟨fun b _ => ⟨not_writes_writeHead, by simp [writeHead]⟩, ?_⟩, ?_⟩
  · have : Fits g [] (writeHead g.start ++ []) := fits_writeHead rfl rfl
    simpa using this
  · have : holds (writeHead g.start ++ []) = [] := holds_writeHead g.start rfl
    simpa [holds] using this

theorem fits_installTrans (h : Logged g lh) (bs pre : List Nat) (e : lh = pre ++ bs) :
    Fits g lh (installTrans g.start pre.length bs ++ .clear :: writeHead g.start) ∧
      holds (installTrans g.start pre.length bs ++ .clear :: writeHead g.start) = [] := by
  induction bs generalizing pre with
  | nil => exact fits_clear g lh
  | cons b bs ih =>
    obtain ⟨fits, hold⟩ := ih (pre ++ [b]) (by simp [e])
    simp only [length_append, length_singleton] at fits hold
    obtain ⟨hb, hget, region, hne⟩ := h.home_ne e
    have hnot : b ∉ bs := by
      have := h.nodup
      rw [e] at this
      exact (nodup_cons.mp (nodup_append.mp this).2.1).1
    have unwritten : ¬Writes (g.start + pre.length + 1)
        (installTrans g.start (pre.length + 1) bs ++ .clear :: writeHead g.start) := by
      rw [writes_append, writes_clear]
      rintro (hw | hw)
      · exact h.home _ (by rw [e]; simp [of_mem_installTrans.1 hw]) region
      · exact not_writes_writeHead hw
    have unpinned : .bunpin b ∉
        installTrans g.start (pre.length + 1) bs ++ .clear :: writeHead g.start := by
      intro hw
      rcases mem_append.mp hw with hw | hw
      · exact hnot (of_mem_installTrans.2 hw)
      · simp [writeHead] at hw
    simp only [installTrans, cons_append, Fits, holds, hold]
    refine ⟨⟨?_, by simp, ⟨by simp, by simp, by simp, pre.length, .inr ⟨hget, rfl, ?_⟩⟩,
      ⟨by simp, hb, ?_⟩, ?_, by simp, fits⟩, by simp⟩
    · simpa using hne
    · simpa using unwritten
    · simpa using unpinned
    · simpa using hne

theorem fits_writeLog (h : Logged g lh) (hrest : Fits g lh rest) (hh : holds rest = [])
    (bs pre : List Nat) (e : lh = pre ++ bs) :
    Fits g lh (writeLog g.start pre.length bs ++ rest) ∧
      holds (writeLog g.start pre.length bs ++ rest) = [] := by
  induction bs generalizing pre with
  | nil => exact ⟨hrest, hh⟩
  | cons b bs ih =>
    obtain ⟨fits, hold⟩ := ih (pre ++ [b]) (by simp [e])
    simp only [length_append, length_singleton] at fits hold
    obtain ⟨hb, hget, region, hne⟩ := h.home_ne e
    simp only [writeLog, cons_append, Fits, holds, hold]
    refine ⟨⟨?_, by simp, ⟨by simp, by simp, fun hl => absurd region (h.home _ hl), pre.length,
      .inl ⟨hget, rfl⟩⟩, ?_, by simp, fits⟩, by simp⟩
    · simpa using hne
    · simpa using hne.symm

theorem fits_commit (h : Logged g lh) :
    Fits g lh (commit g.start lh) ∧ holds (commit g.start lh) = [] := by
  unfold commit
  split
  · obtain ⟨fits, hold⟩ := fits_installTrans h lh [] rfl
    exact fits_writeLog h (fits_writeHead fits hold) (holds_writeHead g.start hold) lh [] rfl
  · exact ⟨length_eq_zero_iff.mp (by omega), rfl⟩

theorem mem_commit (start : Nat) (hb : b ∈ lh) :
    Writes b (commit start lh) ∧ .bunpin b ∈ commit start lh := by
  have hpos : lh.length > 0 := length_pos_of_mem hb
  have := mem_installTrans start 0 hb
  simp [commit, hpos, this]

theorem writes_writeLog (start tail : Nat) (ht : t < bs.length) :
    Writes (start + (tail + t) + 1) (writeLog start tail bs) := by
  induction bs generalizing tail t with
  | nil => cases ht
  | cons b bs ih =>
    cases t with
    | zero => simp [writeLog]
    | succ t =>
      have := ih (t := t) (tail + 1) (by simpa using ht)
      rw [show tail + (t + 1) = tail + 1 + t by omega]
      simp [writeLog, this]

theorem writes_commit (start : Nat) (ht : lh[t]? = some b) :
    Writes (start + t + 1) (commit start lh) := by
  have hlen := (List.getElem?_eq_some_iff.mp ht).1
  have := writes_writeLog start 0 hlen
  rw [Nat.zero_add] at this
  simp [commit, show lh.length > 0 by omega, this]

end Xv6.Bio
