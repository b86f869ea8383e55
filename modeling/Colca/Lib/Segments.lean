import Mathlib.Data.List.Infix
import Mathlib.Data.List.TakeWhile

/-!
# Texts cut at a separator

A text over any alphabet is a list of segments with a separator between them: `join` puts it together,
`List.splitOn` takes it apart, and `splitN` takes off a bounded number of segments and leaves the rest whole.

Segments contain no separator. For such segments the three agree (`splitN_append`, `splitOn_append`), and a
text that starts with another one **and a separator** starts with its segments (`prefix_join_iff`): the
separator is what makes a textual prefix a prefix of levels.
-/

namespace Segments

open List

variable {α : Type*}

/-- The segments with a separator between them. -/
def join (sep : α) (segs : List (List α)) : List α := [sep].intercalate segs

@[simp] theorem join_singleton (sep : α) (a : List α) : join sep [a] = a := intercalate_singleton

variable {ms ps : List (List α)} {segs : List (List α)}

theorem join_cons {sep : α} {a : List α} (h : segs ≠ []) :
    join sep (a :: segs) = a ++ sep :: join sep segs := by
  obtain ⟨b, rest, rfl⟩ := exists_cons_of_ne_nil h
  rw [join, intercalate_cons_cons, append_assoc]
  rfl

theorem join_append {sep : α} {as bs : List (List α)} (ha : as ≠ []) (hb : bs ≠ []) :
    join sep (as ++ bs) = join sep as ++ sep :: join sep bs := by
  induction as with
  | nil => exact absurd rfl ha
  | cons a as ih =>
    rcases eq_or_ne as [] with rfl | has
    · rw [cons_append, nil_append, join_cons hb, join_singleton]
    · rw [cons_append, join_cons (by simp [has]), ih has, join_cons has, append_assoc,
        cons_append]

variable [DecidableEq α]

/-- At most `n` pieces: all but the last end at a separator, and the last is the rest of the text. -/
def splitN (sep : α) : ℕ → List α → List (List α)
  | 0, _ => []
  | 1, s => [s]
  | n + 2, s =>
    match s.dropWhile (· ≠ sep) with
    | [] => [s]
    | _ :: rest => s.takeWhile (· ≠ sep) :: splitN sep (n + 1) rest

/-- What is left of a text after a prefix. -/
def cutPrefix (s start : List α) : Option (List α) :=
  if start.isPrefixOf s then some (s.drop start.length) else none

/-- What is before the first separator, what is behind it, and whether there is one. -/
def cut (sep : α) (s : List α) : List α × List α × Bool :=
  match s.dropWhile (· ≠ sep) with
  | [] => (s, [], false)
  | _ :: rest => (s.takeWhile (· ≠ sep), rest, true)

variable {sep : α} {a s t : List α}

theorem cut_append (h : sep ∉ a) : cut sep (a ++ sep :: s) = (a, s, true) := by
  have hne : ∀ x ∈ a, decide (x ≠ sep) = true := fun x hx ↦
    decide_eq_true fun heq ↦ h (heq ▸ hx)
  rw [cut, dropWhile_append_of_pos hne, takeWhile_append_of_pos hne]
  simp

theorem cut_of_notMem (h : sep ∉ s) : cut sep s = (s, [], false) := by
  have hdrop : s.dropWhile (· ≠ sep) = [] :=
    dropWhile_eq_nil_iff.mpr fun x hx ↦ decide_eq_true fun heq ↦ h (heq ▸ hx)
  rw [cut, hdrop]

/-- A text is one segment, or a segment, a separator and a shorter text. -/
theorem notMem_or_exists_append (sep : α) (s : List α) :
    sep ∉ s ∨ ∃ a rest, sep ∉ a ∧ s = a ++ sep :: rest := by
  by_cases h : sep ∈ s
  · obtain ⟨a, rest, rfl, ha⟩ := eq_append_cons_of_mem h
    exact .inr ⟨a, rest, ha, rfl⟩
  · exact .inl h

theorem length_lt_of_cut {rest : List α} (h : cut sep s = (a, rest, true)) : rest.length < s.length := by
  rcases notMem_or_exists_append sep s with hnot | ⟨b, t, hb, rfl⟩
  · rw [cut_of_notMem hnot] at h
    cases h
  · rw [cut_append hb] at h
    cases h
    simp only [length_append, length_cons]
    omega

theorem splitN_append (h : sep ∉ a) (n : ℕ) :
    splitN sep (n + 2) (a ++ sep :: s) = a :: splitN sep (n + 1) s := by
  have hne : ∀ x ∈ a, decide (x ≠ sep) = true := fun x hx ↦
    decide_eq_true fun heq ↦ h (heq ▸ hx)
  have hdrop : (a ++ sep :: s).dropWhile (· ≠ sep) = sep :: s := by
    rw [dropWhile_append_of_pos hne]
    simp
  have htake : (a ++ sep :: s).takeWhile (· ≠ sep) = a := by
    rw [takeWhile_append_of_pos hne]
    simp
  rw [splitN, hdrop, htake]

theorem splitN_of_notMem (h : sep ∉ a) (n : ℕ) : splitN sep (n + 1) a = [a] := by
  cases n with
  | zero => rfl
  | succ n =>
    have hdrop : a.dropWhile (· ≠ sep) = [] :=
      dropWhile_eq_nil_iff.mpr fun x hx ↦ decide_eq_true fun heq ↦ h (heq ▸ hx)
    rw [splitN, hdrop]

/-- Few enough segments are all taken off. -/
theorem splitN_join (h : ∀ a ∈ segs, sep ∉ a) (hne : segs ≠ []) {n : ℕ}
    (hn : segs.length ≤ n) : splitN sep n (join sep segs) = segs := by
  induction segs generalizing n with
  | nil => exact absurd rfl hne
  | cons a segs ih =>
    have ha : sep ∉ a := h a mem_cons_self
    rw [length_cons] at hn
    rcases eq_or_ne segs [] with rfl | hsegs
    · obtain ⟨n, rfl⟩ := Nat.exists_eq_add_of_le' hn
      rw [join_singleton]
      exact splitN_of_notMem ha n
    · have hpos := length_pos_iff.mpr hsegs
      obtain ⟨n, rfl⟩ := Nat.exists_eq_add_of_le' (show 2 ≤ n by omega)
      have hrest := ih (fun x hx ↦ h x (mem_cons_of_mem _ hx)) hsegs (n := n + 1) (by omega)
      rw [join_cons hsegs, splitN_append ha, hrest]

theorem splitOn_of_notMem (h : sep ∉ a) : List.splitOn sep a = [a] :=
  splitOnP_eq_singleton fun _ hx ↦ beq_eq_false_iff_ne.mpr fun heq ↦ h (heq ▸ hx)

theorem splitOn_append (h : sep ∉ a) : List.splitOn sep (a ++ sep :: s) = a :: List.splitOn sep s := by
  have hsingle : List.splitOnP (· == sep) a = [a] := splitOn_of_notMem h
  have hcut := splitOnP_append_cons (p := fun x ↦ x == sep) a s (beq_self_eq_true sep)
  rw [hsingle] at hcut
  exact hcut

/-- The segments of a text contain no separator. -/
theorem notMem_of_mem_splitOn (h : a ∈ List.splitOn sep s) : sep ∉ a := by
  induction s generalizing a with
  | nil =>
    rw [splitOn_nil, mem_singleton] at h
    simp [h]
  | cons x s ih =>
    rw [List.splitOn, splitOnP_cons_eq_if_modifyHead] at h
    split at h
    · rcases mem_cons.mp h with rfl | h
      · exact not_mem_nil
      · exact ih h
    · rename_i hx
      obtain ⟨b, rest, hb⟩ := exists_cons_of_ne_nil (splitOnP_ne_nil (· == sep) s)
      rw [hb, modifyHead_cons] at h
      rcases mem_cons.mp h with rfl | h
      · have hnot := ih (a := b) (by rw [List.splitOn, hb]; exact mem_cons_self)
        intro hmem
        rcases mem_cons.mp hmem with rfl | hmem
        · exact hx (beq_self_eq_true sep)
        · exact hnot hmem
      · exact ih (by rw [List.splitOn, hb]; exact mem_cons_of_mem _ h)

theorem cutPrefix_eq_some_iff {rest start : List α} :
    cutPrefix s start = some rest ↔ s = start ++ rest := by
  unfold cutPrefix
  split
  · rename_i h
    obtain ⟨r, rfl⟩ := isPrefixOf_iff_prefix.mp h
    simp
  · rename_i h
    simp only [reduceCtorEq, false_iff]
    rintro rfl
    exact h (List.isPrefixOf_iff_prefix.mpr (prefix_append _ _))

/-- Two texts whose first segments end at a separator have the same first segment. -/
theorem append_sep_inj {b : List α} (ha : sep ∉ a) (hb : sep ∉ b) (h : a ++ sep :: s = b ++ sep :: t) :
    a = b ∧ s = t := by
  have hsplit := congrArg (splitN sep 2) h
  rw [splitN_append ha, splitN_append hb] at hsplit
  simpa [splitN] using hsplit

/-- **A prefix that ends at a separator is a prefix of segments.** -/
theorem prefix_join_iff (hm : ∀ m ∈ ms, sep ∉ m) (hp : ∀ p ∈ ps, sep ∉ p)
    (hne : ms ≠ []) : join sep ms ++ [sep] <+: join sep ps ↔ ms <+: ps ∧ ms.length < ps.length := by
  induction ms generalizing ps with
  | nil => exact absurd rfl hne
  | cons m ms ih =>
    have hm' : sep ∉ m := hm m mem_cons_self
    cases ps with
    | nil => simp [join]
    | cons p ps =>
      have hp' : sep ∉ p := hp p mem_cons_self
      rcases eq_or_ne ps [] with rfl | hps
      · -- the last segment has no separator
        simp only [join_singleton, length_cons, length_nil, Nat.zero_add, Nat.lt_one_iff,
          Nat.add_eq_zero_iff, Nat.one_ne_zero, and_false, iff_false]
        intro h
        exact hp' (h.subset (mem_append_right _ (mem_singleton_self _)))
      · rcases eq_or_ne ms [] with rfl | hms
        · rw [join_singleton, join_cons hps]
          constructor
          · rintro ⟨r, hr⟩
            rw [append_assoc] at hr
            obtain ⟨rfl, -⟩ := append_sep_inj hm' hp' hr
            exact ⟨⟨ps, rfl⟩, by simpa using length_pos_iff.mpr hps⟩
          · rintro ⟨⟨r, hr⟩, -⟩
            obtain ⟨rfl, -⟩ := List.cons.inj hr
            exact ⟨join sep ps, by simp⟩
        · rw [join_cons hms, join_cons hps, cons_prefix_cons, length_cons, length_cons,
            Nat.add_lt_add_iff_right, and_assoc, ← ih (fun x hx ↦ hm x (mem_cons_of_mem _ hx))
              (fun x hx ↦ hp x (mem_cons_of_mem _ hx)) hms]
          constructor
          · rintro ⟨r, hr⟩
            rw [append_assoc, append_assoc, cons_append] at hr
            obtain ⟨rfl, hrest⟩ := append_sep_inj hm' hp' hr
            exact ⟨rfl, r, by simpa using hrest⟩
          · rintro ⟨rfl, r, hr⟩
            exact ⟨r, by simp [← hr]⟩

/-- Cutting a prefix that ends at a separator drops its segments. -/
theorem cutPrefix_join (hm : ∀ m ∈ ms, sep ∉ m) (hp : ∀ p ∈ ps, sep ∉ p)
    (hne : ms ≠ []) : cutPrefix (join sep ps) (join sep ms ++ [sep]) =
      if ms <+: ps ∧ ms.length < ps.length then some (join sep (ps.drop ms.length)) else none := by
  split
  · rename_i h
    obtain ⟨⟨r, rfl⟩, hlt⟩ := h
    have hr : r ≠ [] := by
      rintro rfl
      simp at hlt
    rw [cutPrefix_eq_some_iff, join_append hne hr, drop_left, append_assoc, singleton_append]
  · rename_i h
    rw [cutPrefix, if_neg]
    rwa [List.isPrefixOf_iff_prefix, prefix_join_iff hm hp hne]

end Segments
