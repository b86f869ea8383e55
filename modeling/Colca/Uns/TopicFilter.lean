import Colca.Uns.TopicText

/-!
# MQTT topic filters

`ValidFilter` and `MatchFilter` as the source has them, over bytes, and the rule they stand for, over levels:
`+` stands for one level, and `#` as the last one for any number of levels, none included (`LevelsMatch`).
`matchFilter_iff` says that the loop decides the rule for every filter that is valid.
-/

namespace Colca.Uns.TopicText

open Segments

/-- The level `+`. -/
def plusLevel : Text := bytes "+"

/-- The level `#`. -/
def hashLevel : Text := bytes "#"

/-- `strings.Split(s, "/")`. -/
def levels (s : Text) : List Text := List.splitOn slash s

/-- `strings.ContainsAny`. -/
def containsAny (s chars : Text) : Bool := s.any (chars.contains ·)

/-- `ValidFilter`: wildcards are whole levels, and `#` is the last one. -/
def validFilter (f : Text) : Bool :=
  f ≠ [] && (levels f).zipIdx.all fun x ↦
    !(containsAny x.1 (bytes "+#") && x.1 ≠ plusLevel && x.1 ≠ hashLevel) &&
      !(x.1 = hashLevel && x.2 ≠ (levels f).length - 1)

/-- `MatchFilter`: both texts are cut level by level. -/
def matchFilter (f topic : Text) : Bool :=
  match _hf : cut slash f with
  | (level, rest, more) =>
    if level = hashLevel then true
    else
      match cut slash topic with
      | (tlevel, trest, tmore) =>
        if level ≠ plusLevel ∧ level ≠ tlevel then false
        else if !more || !tmore then more == tmore || (more && rest = hashLevel)
        else matchFilter rest trest
termination_by f.length
decreasing_by
  have hcut : cut slash f = (level, rest, true) := by simp_all
  exact length_lt_of_cut hcut

/-! ### The rule on levels -/

/-- **The MQTT rule.** -/
inductive LevelsMatch : List Text → List Text → Prop
  | nil : LevelsMatch [] []
  | level (l : Text) {ls ts : List Text} : LevelsMatch ls ts → LevelsMatch (l :: ls) (l :: ts)
  | plus (t : Text) {ls ts : List Text} : LevelsMatch ls ts → LevelsMatch (plusLevel :: ls) (t :: ts)
  | hash (ts : List Text) : LevelsMatch [hashLevel] ts

/-- `#` stands at the end only. -/
def HashLast (ls : List Text) : Prop := ∀ before after, ls = before ++ hashLevel :: after → after = []

theorem HashLast.tail {l : Text} {ls : List Text} (h : HashLast (l :: ls)) : HashLast ls :=
  fun before after heq ↦ h (l :: before) after (by rw [heq]; rfl)

theorem hashLast_of_validFilter {f : Text} (h : validFilter f = true) : HashLast (levels f) := by
  intro before after heq
  simp only [validFilter, Bool.and_eq_true, List.all_eq_true] at h
  have hmem : (hashLevel, before.length) ∈ (levels f).zipIdx := by
    rw [List.mem_zipIdx_iff_getElem?, heq]
    simp
  have hlast := (h.2 _ hmem).2
  simp only [decide_true, Bool.true_and, Bool.not_eq_true', decide_eq_false_iff_not, ne_eq, not_not] at hlast
  rw [heq, List.length_append, List.length_cons] at hlast
  exact List.length_eq_zero_iff.mp (by omega)

variable {l t : Text} {ls ts : List Text}

/-- A level that is no `#` takes one level of the topic. -/
theorem levelsMatch_cons_iff (hl : l ≠ hashLevel) :
    LevelsMatch (l :: ls) (t :: ts) ↔ (l = plusLevel ∨ l = t) ∧ LevelsMatch ls ts := by
  constructor
  · intro h
    cases h with
    | level _ h => exact ⟨.inr rfl, h⟩
    | plus _ h => exact ⟨.inl rfl, h⟩
    | hash => exact absurd rfl hl
  · rintro ⟨rfl | rfl, h⟩
    · exact .plus t h
    · exact .level l h

theorem levelsMatch_nil_iff : LevelsMatch ls [] ↔ ls = [] ∨ ls = [hashLevel] := by
  constructor
  · intro h
    cases h with
    | nil => exact .inl rfl
    | hash => exact .inr rfl
  · rintro (rfl | rfl)
    · exact .nil
    · exact .hash []

theorem not_levelsMatch_nil_cons : ¬ LevelsMatch [] (t :: ts) := by
  intro h
  cases h

/-- A text of one level `#` is `#`. -/
theorem levels_eq_hash_iff {s : Text} : levels s = [hashLevel] ↔ s = hashLevel := by
  constructor
  · intro h
    have hjoin : join slash (levels s) = s := List.intercalate_splitOn slash
    rw [← hjoin, h, join_singleton]
  · rintro rfl
    decide

theorem levels_ne_nil (s : Text) : levels s ≠ [] := List.splitOnP_ne_nil _ _

/-- The loop over texts follows the rule. -/
theorem matchFilter_iff_of_hashLast {f : Text} (h : HashLast (levels f)) (topic : Text) :
    matchFilter f topic = true ↔ LevelsMatch (levels f) (levels topic) := by
  -- along the levels of the filter; what is left of both texts is cut again
  induction hn : f.length using Nat.strongRecOn generalizing f topic with
  | ind n ih =>
    subst hn
    rw [matchFilter]
    rcases notMem_or_exists_append slash f with hf | ⟨level, rest, hlevel, rfl⟩
    · have hlevels : levels f = [f] := splitOn_of_notMem hf
      simp only [cut_of_notMem hf]
      rw [hlevels]
      by_cases hhash : f = hashLevel
      · rw [if_pos hhash, hhash]
        exact iff_of_true rfl (.hash _)
      rw [if_neg hhash]
      rcases notMem_or_exists_append slash topic with ht | ⟨tlevel, trest, htlevel, rfl⟩
      · have htlevels : levels topic = [topic] := splitOn_of_notMem ht
        rw [htlevels, levelsMatch_cons_iff hhash]
        simp only [cut_of_notMem ht]
        by_cases heq : f = plusLevel ∨ f = topic
        · simp [heq, LevelsMatch.nil]
        · simp only [not_or] at heq
          simp [heq]
      · have htlevels : levels (tlevel ++ slash :: trest) = tlevel :: levels trest := splitOn_append htlevel
        obtain ⟨t', ts', hts⟩ := List.exists_cons_of_ne_nil (levels_ne_nil trest)
        rw [htlevels, levelsMatch_cons_iff hhash, hts]
        simp [cut_append htlevel, not_levelsMatch_nil_cons]
    · have hlevels : levels (level ++ slash :: rest) = level :: levels rest := splitOn_append hlevel
      simp only [cut_append hlevel]
      rw [hlevels] at h ⊢
      have hhash : level ≠ hashLevel := by
        rintro rfl
        exact levels_ne_nil rest (h [] (levels rest) rfl)
      rw [if_neg hhash]
      rcases notMem_or_exists_append slash topic with ht | ⟨tlevel, trest, htlevel, rfl⟩
      · have htlevels : levels topic = [topic] := splitOn_of_notMem ht
        rw [htlevels, levelsMatch_cons_iff hhash, levelsMatch_nil_iff, levels_eq_hash_iff]
        simp only [cut_of_notMem ht]
        by_cases heq : level = plusLevel ∨ level = topic
        · simp [heq, levels_ne_nil]
        · simp only [not_or] at heq
          simp [heq]
      · have htlevels : levels (tlevel ++ slash :: trest) = tlevel :: levels trest := splitOn_append htlevel
        have hrest := ih rest.length (by simp only [List.length_append, List.length_cons]; omega) h.tail trest rfl
        rw [htlevels, levelsMatch_cons_iff hhash, ← hrest]
        simp only [cut_append htlevel]
        by_cases heq : level = plusLevel ∨ level = tlevel
        · simp [heq]
        · simp only [not_or] at heq
          simp [heq]

/-- **`MatchFilter` decides the rule** for every filter `ValidFilter` accepts. -/
theorem matchFilter_iff {f : Text} (h : validFilter f = true) (topic : Text) :
    matchFilter f topic = true ↔ LevelsMatch (levels f) (levels topic) :=
  matchFilter_iff_of_hashLast (hashLast_of_validFilter h) topic

end Colca.Uns.TopicText
