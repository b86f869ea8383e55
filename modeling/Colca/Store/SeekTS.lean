import Colca.Store.Pages

/-!
# Seeking a timestamp

`SeekTS` finds the first record that is not older than a timestamp by binary search over the offsets of a
stream. The search lands on holes, where the next record that exists counts, and the records need not lie
in time order. What it promises then is modest: its answer is where it began, or it follows a record that
is older than the timestamp (`seekTS_spec`).
-/

namespace Colca

open Uns

/-- The loop of `SeekTS` over `[lo, hi)`, with the iterator over the records below `top`. -/
def seekLoop (d : Disk) (st : Stream) (ts : ℤ) (top lo hi : ℕ) : ℕ :=
  if lo < hi then
    match h : (recordsIn d st (lo + (hi - lo) / 2) top).head? with
    -- nothing retained from the middle on
    | none => seekLoop d st ts top lo (lo + (hi - lo) / 2)
    | some x =>
      if ts ≤ x.2.ts then seekLoop d st ts top lo (lo + (hi - lo) / 2)
      else seekLoop d st ts top (x.1 + 1) hi
  else lo
termination_by hi - lo
decreasing_by
  · omega
  · omega
  · have hle := (mem_recordsIn.mp (List.mem_of_head? h)).1
    omega

/-- `SeekTS`. -/
def seekTS (d : Disk) (st : Stream) (lwm next : ℕ) (ts : ℤ) : ℕ :=
  -- unknown stream: offsets start at 1
  let lo := if lwm = 0 then 1 else lwm
  if next ≤ lo then next else seekLoop d st ts next lo next

variable {d : Disk} {st : Stream} {ts : ℤ} {lwm next lo hi : ℕ}

theorem seekLoop_spec (d : Disk) (st : Stream) (ts : ℤ) (top lo hi : ℕ) :
    seekLoop d st ts top lo hi = lo ∨
      ∃ o e, recordAt d st o = some e ∧ e.ts < ts ∧ seekLoop d st ts top lo hi = o + 1 := by
  fun_induction seekLoop d st ts top lo hi with
  | case1 lo hi hlt h ih => exact ih
  | case2 lo hi hlt x h hts ih => exact ih
  | case3 lo hi hlt x h hts ih =>
    rcases ih with ih | ih
    · exact .inr ⟨x.1, x.2, (mem_recordsIn.mp (List.mem_of_head? h)).2.2, Int.not_le.mp hts, ih⟩
    · exact .inr ih
  | case4 lo hi hlt => exact .inl rfl

/-- **What a seek leaves behind**: a record below its answer is an older one, or lies before one. -/
theorem seekTS_spec (hwithin : ∀ o e, recordAt d st o = some e → lwm ≤ o ∧ o < next) (hlwm : 1 ≤ lwm)
    {o : ℕ} {e : RecEnc} (he : recordAt d st o = some e) (ho : o < seekTS d st lwm next ts) :
    ∃ o' e', o ≤ o' ∧ recordAt d st o' = some e' ∧ e'.ts < ts := by
  obtain ⟨hle, hlt⟩ := hwithin o e he
  simp only [seekTS, if_neg (Nat.one_le_iff_ne_zero.mp hlwm)] at ho
  rw [if_neg (by omega)] at ho
  rcases seekLoop_spec d st ts next lwm next with h | ⟨o', e', he', hts, h⟩
  · omega
  · exact ⟨o', e', by omega, he', hts⟩

theorem recordsIn_split {mid : ℕ} (h : lo ≤ mid) :
    recordsIn d st lo hi = recordsIn d st lo (min mid hi) ++ recordsIn d st mid hi := by
  refine (recordsIn_increasing d st lo hi).eq_of_mem_iff (List.pairwise_append.mpr
    ⟨recordsIn_increasing .., recordsIn_increasing .., fun x hx y hy ↦ ?_⟩) fun x ↦ ?_
  · have hlt := (mem_recordsIn.mp hx).2.1
    have hle := (mem_recordsIn.mp hy).1
    omega
  · rw [List.mem_append, mem_recordsIn, mem_recordsIn, mem_recordsIn]
    constructor
    · rintro ⟨hlo, hhi, he⟩
      rcases lt_or_ge x.1 mid with hlt | hge
      · exact .inl ⟨hlo, by omega, he⟩
      · exact .inr ⟨hge, hhi, he⟩
    · rintro (⟨hlo, hhi, he⟩ | ⟨hlo, hhi, he⟩)
      · exact ⟨hlo, by omega, he⟩
      · exact ⟨h.trans hlo, hhi, he⟩

/-- The records past one of them are those that follow it. -/
theorem recordsIn_after {xs ys : List (ℕ × RecEnc)} {x : ℕ × RecEnc}
    (h : recordsIn d st lo hi = xs ++ x :: ys) : recordsIn d st (x.1 + 1) hi = ys := by
  have hinc := recordsIn_increasing d st lo hi
  have hx : x ∈ recordsIn d st lo hi := by rw [h]; simp
  rw [h] at hinc
  obtain ⟨-, htail, hbefore⟩ := List.pairwise_append.mp hinc
  obtain ⟨hafter, hys⟩ := List.pairwise_cons.mp htail
  refine (recordsIn_increasing d st (x.1 + 1) hi).eq_of_mem_iff hys fun y ↦ ?_
  rw [mem_recordsIn]
  constructor
  · rintro ⟨hlo, hhi, hy⟩
    have hmem : y ∈ xs ++ x :: ys :=
      h ▸ mem_recordsIn.mpr ⟨(mem_recordsIn.mp hx).1.trans (by omega), hhi, hy⟩
    rcases List.mem_append.mp hmem with hy' | hy'
    · have := hbefore y hy' x List.mem_cons_self
      omega
    · rcases List.mem_cons.mp hy' with rfl | hy'
      · omega
      · exact hy'
  · intro hy
    obtain ⟨-, hhi, hrec⟩ := mem_recordsIn.mp (h ▸ (by simp [hy] : y ∈ xs ++ x :: ys))
    exact ⟨hafter y hy, hhi, hrec⟩

end Colca
