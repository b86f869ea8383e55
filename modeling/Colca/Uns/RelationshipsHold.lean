import Colca.Uns.Relationships

/-!
# Relationships stay well formed

A batch is judged around the signals whose links it changes. The others hold the links they held, so what
the rules say of them is what it was, with one exception: the target of a link may be gone. That is what the
cleanup is for, and where it does not reach.
-/

namespace Colca.Relationships

open Uns Relation List Option

variable {ends : List Signal} {checked : String → Bool} {s t : Signal} {kind id a b : String}

/-! ### What a check without problems says -/

/-- A link that counts. -/
def Link.Passes (ends : List Signal) (s : Signal) (l : Link) : Prop :=
  (relationshipRules l.kind).isSome ∧ l.target ≠ s.id ∧ (endAt ends l.target).isSome

variable {seen : List String} {ls : List Link}

/-- The links of a signal without problems pass, at most one of each type. -/
theorem passes_of_scanLinks (hc : checked s.id = true) (h : (scanLinks ends checked s seen ls).1 = []) :
    (∀ l ∈ ls, l.Passes ends s ∧ l.kind ∉ seen) ∧ (ls.map Link.kind).Nodup := by
  induction ls generalizing seen with
  | nil => exact ⟨nofun, nodup_nil⟩
  | cons l ls ih =>
    simp only [scanLinks, hc, if_true] at h
    split at h
    · cases h
    · rename_i rule hrule
      split at h
      · cases h
      · rename_i hseen
        split at h
        · cases h
        · rename_i hself
          split at h
          · cases h
          · rename_i t ht
            obtain ⟨hall, hnodup⟩ := ih (append_eq_nil_iff.mp h).2
            have hpass : l.Passes ends s := ⟨by rw [hrule]; rfl, hself, by rw [ht]; rfl⟩
            refine ⟨fun l' hl' ↦ ?_, nodup_cons.mpr ⟨fun hm ↦ ?_, hnodup⟩⟩
            · obtain rfl | hl' := mem_cons.mp hl'
              · exact ⟨hpass, hseen⟩
              · exact ⟨(hall l' hl').1, fun hm ↦ (hall l' hl').2 (mem_cons_of_mem _ hm)⟩
            · obtain ⟨l', hl', heq⟩ := mem_map.mp hm
              exact (hall l' hl').2 (heq ▸ mem_cons_self)

/-- Links that pass count. -/
theorem mem_scanLinks (hp : ∀ l ∈ ls, l.Passes ends s ∧ l.kind ∉ seen)
    (hn : (ls.map Link.kind).Nodup) {l : Link} (hl : l ∈ ls) :
    (l.kind, s.id, l.target) ∈ (scanLinks ends checked s seen ls).2 := by
  induction ls generalizing seen with
  | nil => cases hl
  | cons l' ls ih =>
    obtain ⟨⟨hrule, hself, hend⟩, hseen⟩ := hp l' mem_cons_self
    obtain ⟨hnot, hn⟩ := nodup_cons.mp hn
    obtain ⟨rule, hrule⟩ := isSome_iff_exists.mp hrule
    obtain ⟨t, ht⟩ := isSome_iff_exists.mp hend
    simp only [scanLinks, hrule, if_neg hseen, if_neg hself, ht]
    obtain rfl | hl := mem_cons.mp hl
    · exact mem_cons_self
    · refine mem_cons_of_mem _ (ih (fun l'' hl'' ↦ ⟨(hp l'' (mem_cons_of_mem _ hl'')).1, ?_⟩) hn hl)
      rw [mem_cons, not_or]
      exact ⟨fun heq ↦ hnot (mem_map.mpr ⟨l'', hl'', heq⟩), (hp l'' (mem_cons_of_mem _ hl'')).2⟩

/-- What counts is a link. -/
theorem of_mem_scanLinks
    (h : (kind, a, b) ∈ (scanLinks ends checked s seen ls).2) : a = s.id ∧ ⟨kind, b⟩ ∈ ls := by
  induction ls generalizing seen with
  | nil => cases h
  | cons l ls ih =>
    have hrest : ∀ seen, (kind, a, b) ∈ (scanLinks ends checked s seen ls).2 →
        a = s.id ∧ ⟨kind, b⟩ ∈ l :: ls := fun seen hm ↦ (ih hm).imp_right (mem_cons_of_mem _)
    simp only [scanLinks] at h
    split at h
    · exact hrest _ h
    · split at h
      · exact hrest _ h
      · split at h
        · exact hrest _ h
        · split at h
          · exact hrest _ h
          · obtain heq | h := mem_cons.mp h
            · obtain ⟨rfl, rfl, rfl⟩ : kind = l.kind ∧ a = s.id ∧ b = l.target := by simpa using heq
              exact ⟨rfl, mem_cons_self⟩
            · exact hrest _ h

theorem of_endAt (h : endAt ends id = some s) : s ∈ ends ∧ s.id = id := by
  have hid := find?_some h
  exact ⟨mem_of_find?_eq_some h, of_decide_eq_true hid⟩

theorem isSome_endAt : (endAt ends id).isSome ↔ ∃ s ∈ ends, s.id = id := by
  simp [endAt]

theorem mem_ordered (hn : (ends.map Signal.id).Nodup) (hs : s ∈ ends) : s ∈ ordered ends := by
  refine mem_filterMap.mpr ⟨s.id, (mem_insertionSort _).mpr (mem_dedup.mpr
    (mem_map_of_mem hs)), ?_⟩
  obtain ⟨t, ht⟩ := isSome_iff_exists.mp (isSome_endAt.mpr ⟨s, hs, rfl⟩)
  rw [ht, inj_on_of_nodup_map hn (of_endAt ht).1 hs (of_endAt ht).2]

/-- The links of all signals pass, at most one of each type. -/
structure AllPass (ends : List Signal) : Prop where
  ids : (ends.map Signal.id).Nodup
  passes : ∀ s ∈ ends, ∀ l ∈ s.links, l.Passes ends s
  one : ∀ s ∈ ends, (s.links.map Link.kind).Nodup

section AllPass

variable (h : AllPass ends)
include h

/-- What counts of a type are its links. -/
theorem AllPass.mem_edgesOf (checked : String → Bool) : (a, b) ∈ edgesOf ends checked kind ↔ Names ends kind a b := by
  have hmem : (a, b) ∈ edgesOf ends checked kind ↔ (kind, a, b) ∈ edges ends checked := by
    simp [edgesOf]
  rw [hmem, edges, mem_flatMap]
  constructor
  · rintro ⟨s, hs, he⟩
    obtain ⟨id, -, hid⟩ := mem_filterMap.mp hs
    obtain ⟨rfl, hl⟩ := of_mem_scanLinks he
    exact ⟨s, (of_endAt hid).1, rfl, hl⟩
  · rintro ⟨s, hs, rfl, hl⟩
    exact ⟨s, mem_ordered h.ids hs, mem_scanLinks (fun l hl ↦ ⟨h.passes s hs l hl, not_mem_nil⟩)
      (h.one s hs) hl⟩

theorem AllPass.lookup_edgesOf (checked : String → Bool) (hab : Names ends kind a b) :
    (edgesOf ends checked kind).lookup a = some b := by
  have hmem := (h.mem_edgesOf checked).mpr hab
  cases hl : (edgesOf ends checked kind).lookup a with
  | none => exact absurd (lookup_eq_none_iff.mp hl _ hmem) (by simp)
  | some c =>
    have hac : (a, c) ∈ edgesOf ends checked kind := by
      obtain ⟨l₁, l₂, heq, -⟩ := lookup_eq_some_iff.mp hl
      simp [heq]
    obtain ⟨s, hs, hsa, hsc⟩ := (h.mem_edgesOf checked).mp hac
    obtain ⟨t, ht, hta, htb⟩ := hab
    obtain rfl := inj_on_of_nodup_map h.ids hs ht (hsa.trans hta.symm)
    have heq : Link.mk kind c = ⟨kind, b⟩ := inj_on_of_nodup_map (h.one s hs) hsc htb rfl
    cases heq
    rfl

end AllPass

section NoProblems

variable (hp : relationshipProblems ends checked = [])
include hp

theorem scanLinks_eq_nil (hs : s ∈ ordered ends) : (scanLinks ends checked s [] s.links).1 = [] :=
  flatMap_eq_nil_iff.mp (append_eq_nil_iff.mp hp).1 s hs

theorem kindProblems_eq_nil {rule : Rule} (hk : kind ∈ relationshipTypeNames)
    (hr : relationshipRules kind = some rule) : kindProblems ends checked kind rule = [] := by
  have h := flatMap_eq_nil_iff.mp (append_eq_nil_iff.mp hp).2 kind hk
  rwa [hr] at h

variable (h : AllPass ends)
include h

/-- A checked source of an actual link is the only one of its target. -/
theorem actual_of_noProblems {target : String} (hs : Names ends "actual" a target)
    (ht : Names ends "actual" b target) (hc : checked a = true) : a = b := by
  have hnil := (append_eq_nil_iff.mp (kindProblems_eq_nil hp (by decide : "actual" ∈ _) rfl)).1
  rw [if_pos (by decide)] at hnil
  have hmem : ∀ c, Names ends "actual" c target →
      c ∈ ((edgesOf ends checked "actual").filter fun l ↦ l.2 = target).map Prod.fst := fun c hc ↦
    mem_map.mpr ⟨(c, target), mem_filter.mpr ⟨(h.mem_edgesOf checked).mpr hc, by simp⟩, rfl⟩
  have hin : target ∈ ((edgesOf ends checked "actual").map Prod.snd).dedup.insertionSort (· ≤ ·) :=
    (mem_insertionSort _).mpr (mem_dedup.mpr (mem_map.mpr ⟨_, (h.mem_edgesOf checked).mpr hs, rfl⟩))
  have hnone := filterMap_eq_nil_iff.mp hnil target hin
  generalize ((edgesOf ends checked "actual").filter fun l ↦ l.2 = target).map Prod.fst = sources at hmem hnone
  by_contra hne
  refine absurd hnone ?_
  have hlen : 1 < sources.length := by
    by_contra hle
    obtain ⟨c, hc⟩ := length_eq_one_iff.mp (by
      have := length_pos_of_mem (hmem a hs)
      omega : sources.length = 1)
    rw [hc] at hmem
    exact hne ((mem_singleton.mp (hmem a hs)).trans (mem_singleton.mp (hmem b ht)).symm)
  rw [if_pos ⟨hlen, any_eq_true.mpr ⟨a, hmem a hs, hc⟩⟩]
  exact some_ne_none _

/-- Of a target of an unchained link that holds one itself and its source, none was checked. -/
theorem unchained_of_noProblems {c : String} (hk : kind ∈ ["actual", "feedback"]) (hab : Names ends kind a b)
    (hbc : Names ends kind b c) : ¬ (checked a || checked b) = true := by
  have hkinds : ∀ k ∈ ["actual", "feedback"], (relationshipRules k).map (·.chains) = some false ∧
      k ∈ relationshipTypeNames := by decide
  obtain ⟨hmap, hk⟩ := hkinds kind hk
  obtain ⟨rule, hrule, hchains⟩ := map_eq_some_iff.mp hmap
  intro hc
  have hnil := (append_eq_nil_iff.mp (kindProblems_eq_nil hp hk hrule)).2
  rw [hchains, if_neg Bool.false_ne_true] at hnil
  have hnone := filterMap_eq_nil_iff.mp hnil (a, b) ((h.mem_edgesOf checked).mpr hab)
  rw [if_pos ⟨by rw [h.lookup_edgesOf checked hbc]; rfl, hc⟩] at hnone
  cases hnone

/-- No member of a cycle of limits was checked. -/
theorem acyclic_of_noProblems {c : String} (hk : kind ∈ ["upper_limit", "lower_limit"])
    (ha : TransGen (Names ends kind) a a) (hac : TransGen (Names ends kind) a c) : ¬ checked c = true := by
  have hkinds : ∀ k ∈ ["upper_limit", "lower_limit"], (relationshipRules k).map (·.chains) = some true ∧
      k ∈ relationshipTypeNames := by decide
  obtain ⟨hmap, hk⟩ := hkinds kind hk
  obtain ⟨rule, hrule, hchains⟩ := map_eq_some_iff.mp hmap
  intro hc
  have hnil := (append_eq_nil_iff.mp (kindProblems_eq_nil hp hk hrule)).2
  rw [hchains, if_pos rfl, map_eq_nil_iff] at hnil
  have hedge : Names ends kind ≤ FollowLinks.Edge (edgesOf ends checked kind) := fun _ _ hxy ↦
    h.lookup_edgesOf checked hxy
  have hmono := TransGen.mono hedge
  obtain ⟨b, hab, -⟩ := TransGen.head'_iff.mp ha
  exact FollowLinks.cycles_ne_nil (hmono _ _ ha)
    (mem_map.mpr ⟨(a, b), (h.mem_edgesOf checked).mpr hab, rfl⟩) (hmono _ _ hac) hc
    (fun _ hm ↦ absurd hm not_mem_nil) hnil

end NoProblems

/-! ### One batch -/

/-- The rules hold, with what the check says of every link. -/
structure Inv (ends : List Signal) : Prop extends AllPass ends where
  actual : ∀ {a b target}, Names ends "actual" a target → Names ends "actual" b target → a = b
  unchained : ∀ {kind a b c}, kind ∈ ["actual", "feedback"] → Names ends kind a b → ¬ Names ends kind b c
  acyclic : ∀ {kind a}, kind ∈ ["upper_limit", "lower_limit"] → ¬ TransGen (Names ends kind) a a

theorem Inv.wellFormed (h : Inv ends) : WellFormed ends where
  exist s hs l hl := isSome_endAt.mp (h.passes s hs l hl).2.2
  one := h.one
  actual s hs t ht _ hsl htl :=
    inj_on_of_nodup_map h.ids hs ht (h.actual ⟨s, hs, rfl, hsl⟩ ⟨t, ht, rfl, htl⟩)
  unchained _ hk s hs t ht hl l hl' heq :=
    h.unchained hk ⟨s, hs, rfl, hl⟩ (c := l.target) ⟨t, ht, rfl, heq ▸ hl'⟩
  acyclic _ hk _ := h.acyclic hk

/-- The signal holds the links it held. -/
def Old (old : List Signal) (s : Signal) : Prop :=
  s.links ≠ [] → ∃ s₀ ∈ old, s₀.id = s.id ∧ s₀.links = s.links

/-- **The rules hold after a batch** that is without problems around the signals it changes, when the targets of
the other links are still there. -/
theorem Inv.next {old : List Signal} (h : Inv old) (hids : (ends.map Signal.id).Nodup)
    (hold : ∀ s ∈ ends, ¬ checked s.id = true → Old old s)
    (hexist : ∀ s ∈ ends, ¬ checked s.id = true → ∀ l ∈ s.links, ∃ t ∈ ends, t.id = l.target)
    (hp : ∀ id, checked id = true → relationshipProblems ends checked = []) : Inv ends := by
  have hscan : ∀ s ∈ ends, (∀ l ∈ s.links, l.Passes ends s) ∧ (s.links.map Link.kind).Nodup := fun s hs ↦ by
    by_cases hc : checked s.id = true
    · obtain ⟨hpass, hone⟩ := passes_of_scanLinks hc (scanLinks_eq_nil (hp _ hc) (mem_ordered hids hs))
      exact ⟨fun l hl ↦ (hpass l hl).1, hone⟩
    · by_cases hnil : s.links = []
      · simp [hnil]
      · obtain ⟨s₀, hs₀, hid, hlinks⟩ := hold s hs hc hnil
        refine ⟨fun l hl ↦ ?_, hlinks ▸ h.one s₀ hs₀⟩
        obtain ⟨hrule, hself, -⟩ := h.passes s₀ hs₀ l (hlinks ▸ hl)
        exact ⟨hrule, hid ▸ hself, isSome_endAt.mpr (hexist s hs hc l hl)⟩
  have hall : AllPass ends := ⟨hids, fun s hs ↦ (hscan s hs).1, fun s hs ↦ (hscan s hs).2⟩
  -- a link of a signal that was not checked was there before
  have hnames : ∀ {kind a b}, ¬ checked a = true → Names ends kind a b → Names old kind a b := by
    rintro kind a b hc ⟨s, hs, rfl, hl⟩
    obtain ⟨s₀, hs₀, hid, hlinks⟩ := hold s hs hc (ne_nil_of_mem hl)
    exact ⟨s₀, hs₀, hid, hlinks ▸ hl⟩
  refine ⟨hall, fun {a b _} ha hb ↦ ?_, fun {kind a b _} hk hab hbc ↦ ?_, fun {kind a} hk ha ↦ ?_⟩
  · by_cases hca : checked a = true
    · exact actual_of_noProblems (hp _ hca) hall ha hb hca
    · by_cases hcb : checked b = true
      · exact (actual_of_noProblems (hp _ hcb) hall hb ha hcb).symm
      · exact h.actual (hnames hca ha) (hnames hcb hb)
  · have hnot : ∀ c, checked c = true → ¬ (checked a || checked b) = true := fun c hc ↦
      unchained_of_noProblems (hp _ hc) hall hk hab hbc
    have hca : ¬ checked a = true := fun hc ↦ hnot a hc (by simp [hc])
    have hcb : ¬ checked b = true := fun hc ↦ hnot b hc (by simp [hc])
    exact h.unchained hk (hnames hca hab) (hnames hcb hbc)
  · have hno : ∀ c, TransGen (Names ends kind) a c → ¬ checked c = true := fun c hac hc ↦
      acyclic_of_noProblems (hp _ hc) hall hk ha hac hc
    have hback : ∀ {c}, TransGen (Names ends kind) a c → TransGen (Names old kind) a c := fun {c} hac ↦ by
      induction hac with
      | single he => exact .single (hnames (hno a ha) he)
      | tail hab he ih => exact .tail ih (hnames (hno _ hab) he)
    exact h.acyclic hk (hback ha)

/-! ### Cleanup -/

section Cleanup

variable {kv : KV} {records : List StateRecord} {ids : List String} {topic : Topic} {x : Topic × Signal}

/-- What the last record of a topic in a batch writes. -/
def lastSignal (topic : Topic) : List StateRecord → Option (Option Signal)
  | [] => none
  | r :: rs => (lastSignal topic rs).or (if r.topic = topic then some r.signal else none)

theorem lastSignal_append (xs ys : List StateRecord) :
    lastSignal topic (xs ++ ys) = (lastSignal topic ys).or (lastSignal topic xs) := by
  induction xs with
  | nil => simp [lastSignal]
  | cons r xs ih => simp [lastSignal, ih, Option.or_assoc]

theorem lastSignal_eq_none : lastSignal topic records = none ↔ ∀ r ∈ records, r.topic ≠ topic := by
  induction records with
  | nil => simp [lastSignal]
  | cons r rs ih => simp [lastSignal, ih, and_comm]

theorem exists_of_lastSignal {o : Option Signal} (h : lastSignal topic records = some o) :
    ∃ r ∈ records, r.topic = topic ∧ r.signal = o := by
  induction records with
  | nil => cases h
  | cons r rs ih =>
    rw [lastSignal, or_eq_some_iff] at h
    obtain h | ⟨-, h⟩ := h
    · obtain ⟨r', hr', hrest⟩ := ih h
      exact ⟨r', mem_cons_of_mem _ hr', hrest⟩
    · obtain ⟨ht, ho⟩ := ite_none_right_eq_some.mp h
      exact ⟨r, mem_cons_self, ht, some.inj ho⟩

theorem mem_commitOne {r : StateRecord} :
    x ∈ commitOne kv r ↔ if r.topic = x.1 then r.signal = some x.2 else x ∈ kv := by
  obtain ⟨t, s⟩ := x
  by_cases ht : r.topic = t
  · simp [commitOne, ht]
  · simp [commitOne, ht, Ne.symm ht]

/-- What a topic holds after a batch. -/
theorem mem_commitAll : x ∈ commitAll kv records ↔
    match lastSignal x.1 records with
    | some o => o = some x.2
    | none => x ∈ kv := by
  induction records generalizing kv with
  | nil => rfl
  | cons r rs ih =>
    rw [commitAll, foldl_cons, ← commitAll, ih, lastSignal]
    cases lastSignal x.1 rs with
    | some o => rfl
    | none =>
      rw [mem_commitOne, none_or]
      by_cases ht : r.topic = x.1 <;> simp [ht]

theorem nodup_commitAll (h : (kv.map Prod.fst).Nodup) : ((commitAll kv records).map Prod.fst).Nodup := by
  induction records generalizing kv with
  | nil => exact h
  | cons r rs ih =>
    refine ih ?_
    rw [commitOne, map_append]
    refine nodup_append.mpr ⟨h.sublist (filter_sublist.map _), ?_, ?_⟩
    · cases r.signal <;> simp
    · intro a ha b hb heq
      obtain ⟨y, hy, rfl⟩ := mem_map.mp ha
      have hne := (mem_filter.mp hy).2
      cases hs : r.signal with
      | none => simp [hs] at hb
      | some s =>
        simp only [hs, map_some, toList_some, map_cons, map_nil, mem_singleton] at hb
        simp [heq, hb] at hne

/-- The last record of a topic in the cleaned batch. -/
theorem lastSignal_stripBatch : lastSignal topic (stripBatch kv ids records) =
    (lastSignal topic records).map fun o ↦ if (kv.lookup topic).isNone then o else o.map (·.strip ids) := by
  induction records with
  | nil => rfl
  | cons r rs ih =>
    rw [stripBatch, lastSignal, lastSignal, ih]
    cases hl : lastSignal topic rs with
    | some o => rfl
    | none =>
      have hnone := lastSignal_eq_none.mp hl
      by_cases ht : r.topic = topic
      · subst ht
        have hany : (rs.any fun r' ↦ r'.topic = r.topic) = false := by simpa using hnone
        cases (kv.lookup r.topic).isNone <;> simp [hany]
      · have htopic : ∀ c : Prop, [Decidable c] → (if c then r
            else { r with signal := r.signal.map (·.strip ids) }).topic = r.topic := fun c _ ↦ by split <;> rfl
        rw [htopic, if_neg ht, if_neg ht]
        rfl

theorem strip_eq_self (h : (Signal.strip s ids).links = s.links) : s.strip ids = s := by
  cases s
  simp_all [Signal.strip]

/-- **What a topic holds after a cleaned batch**: what it holds after the batch, without the links to what
was removed unless the topic held no signal. -/
theorem mem_cleanup (hkv : (kv.map Prod.fst).Nodup) :
    x ∈ commitAll kv (withRelationshipCleanup kv records) ↔ ∃ s, (x.1, s) ∈ commitAll kv records ∧
      x.2 = if (kv.lookup x.1).isNone then s else s.strip (removed kv records) := by
  have hlookup : ∀ {t s}, (t, s) ∈ kv → (kv.lookup t).isNone = false := fun {t s} hm ↦ by
    rw [isNone_eq_false_iff]
    by_contra hno
    exact absurd (lookup_eq_none_iff.mp (not_isSome_iff_eq_none.mp hno) _ hm) (by simp)
  have huniq : ∀ {y s}, y ∈ kv → (y.1, s) ∈ kv → y.2 = s := fun hy hs ↦
    congrArg Prod.snd (inj_on_of_nodup_map hkv hy hs rfl)
  unfold withRelationshipCleanup
  split
  · rename_i hnil
    have hstrip : ∀ s : Signal, s.strip [] = s := fun s ↦ strip_eq_self (by simp [Signal.strip])
    simp [hnil, hstrip]
  · rw [mem_commitAll, lastSignal_append, lastSignal_stripBatch]
    simp only [mem_commitAll]
    cases hB : lastSignal x.1 (stripOthers kv (removed kv records) records) with
    | some o =>
      obtain ⟨r, hr, ht, ho⟩ := exists_of_lastSignal hB
      obtain ⟨y, hy, hyr⟩ := mem_filterMap.mp hr
      obtain ⟨hno, hyr⟩ := ite_none_left_eq_some.mp hyr
      obtain rfl := some.inj hyr
      have hy' : (x.1, y.2) ∈ kv := by
        rw [← ht]
        exact hy
      have hrec : lastSignal x.1 records = none := lastSignal_eq_none.mpr fun r hr heq ↦
        hno (.inl (any_eq_true.mpr ⟨r, hr, decide_eq_true (heq.trans ht.symm)⟩))
      simp only [hrec, hlookup hy', Bool.false_eq_true, if_false, some_or, ← ho, Option.some.injEq]
      exact ⟨fun h ↦ ⟨y.2, hy', h.symm⟩, fun ⟨s, hs, hx⟩ ↦ by rw [hx, huniq hy' hs]⟩
    | none =>
      cases hA : lastSignal x.1 records with
      | some o =>
        simp only [map_some, none_or]
        cases o <;> cases (kv.lookup x.1).isNone <;> simp [eq_comm]
      | none =>
        -- no record of the batch is at the topic, and what it holds names nothing that was removed
        have hsame : ∀ s, (x.1, s) ∈ kv → s.strip (removed kv records) = s := fun s hs ↦ by
          by_contra hne
          refine lastSignal_eq_none.mp hB ⟨x.1, some (s.strip (removed kv records))⟩
            (mem_filterMap.mpr ⟨(x.1, s), hs, if_neg ?_⟩) rfl
          rintro (hany | hlinks)
          · obtain ⟨r, hr, heq⟩ := any_eq_true.mp hany
            exact lastSignal_eq_none.mp hA r hr (of_decide_eq_true heq)
          · exact hne (strip_eq_self hlinks)
        simp only [map_none, none_or]
        constructor
        · intro hx
          exact ⟨x.2, hx, by rw [hlookup hx, if_neg Bool.false_ne_true, hsame x.2 hx]⟩
        · rintro ⟨s, hs, hx⟩
          rw [hlookup hs, if_neg Bool.false_ne_true, hsame s hs] at hx
          rw [← hx] at hs
          exact hs

/-! ### Runs -/

/-- A batch changes what is not old. -/
theorem old_of_commitAll (hx : x ∈ commitAll kv records) (hc : x.2.id ∉ changed kv records) :
    Old (kv.map Prod.snd) x.2 := by
  intro hne
  rw [mem_commitAll] at hx
  split at hx
  · rename_i o hl
    obtain ⟨r, hr, -, ho⟩ := exists_of_lastSignal hl
    rw [hx] at ho
    have hbefore : before kv x.2.id = x.2.links := by
      by_contra hb
      exact hc (mem_filterMap.mpr ⟨r, hr, by simp [ho, hne, hb]⟩)
    unfold before at hbefore
    cases hlast : (kv.filter fun y ↦ y.2.id = x.2.id).getLast? with
    | none =>
      rw [hlast] at hbefore
      exact absurd hbefore.symm hne
    | some y =>
      rw [hlast] at hbefore
      obtain ⟨hy, hid⟩ := mem_filter.mp (mem_of_getLast? hlast)
      exact ⟨y.2, mem_map_of_mem hy, of_decide_eq_true hid, hbefore⟩
  · exact ⟨x.2, mem_map_of_mem hx, rfl, rfl⟩

/-- The state: every topic once, and the rules. -/
structure Good (kv : KV) : Prop where
  topics : (kv.map Prod.fst).Nodup
  inv : Inv (kv.map Prod.snd)

/-- The target of an old link is still there. -/
theorem Good.exist {l : Link} (h : Good kv) (hleaves : LeavesNone kv records)
    (hx : x ∈ commitAll kv (withRelationshipCleanup kv records)) (hold : Old (kv.map Prod.snd) x.2)
    (hl : l ∈ x.2.links) : ∃ y ∈ commitAll kv (withRelationshipCleanup kv records), y.2.id = l.target := by
  obtain ⟨s, hs, hxs⟩ := (mem_cleanup h.topics).mp hx
  have hls : l ∈ s.links := by
    rw [hxs] at hl
    split at hl
    · exact hl
    · exact (mem_filter.mp hl).1
  by_cases hthere : ∃ y ∈ commitAll kv records, y.2.id = l.target
  · obtain ⟨y, hy, hid⟩ := hthere
    refine ⟨(y.1, if (kv.lookup y.1).isNone then y.2 else y.2.strip (removed kv records)),
      (mem_cleanup h.topics).mpr ⟨y.2, hy, rfl⟩, ?_⟩
    dsimp only
    split <;> exact hid
  · push Not at hthere
    obtain ⟨s₀, hs₀, -, hlinks⟩ := hold (ne_nil_of_mem hl)
    obtain ⟨t, ht, htid⟩ := isSome_endAt.mp (h.inv.passes s₀ hs₀ l (hlinks ▸ hl)).2.2
    obtain ⟨z, hz, rfl⟩ := mem_map.mp ht
    obtain hnone | ⟨hrem, hnew⟩ := hleaves.2 z hz ⟨⟨z, hz, rfl⟩, htid ▸ hthere⟩
    · exact absurd htid.symm (hnone _ hs l hls)
    · -- the link was cleaned up, at a topic that held a signal or at another
      exfalso
      rw [hxs] at hl
      split at hl
      · rename_i hfresh
        have hs' := mem_commitAll.mp hs
        split at hs'
        · rename_i o hlast
          obtain ⟨r, hr, ht, ho⟩ := exists_of_lastSignal hlast
          exact hnew r hr (ht ▸ hfresh) s (ho.trans hs') l hls htid.symm
        · exact absurd (lookup_eq_none_iff.mp (isNone_iff_eq_none.mp hfresh) _ hs') (by simp)
      · have hkept := (mem_filter.mp hl).2
        simp [← htid, hrem] at hkept

theorem good_empty : Good [] where
  topics := nodup_nil
  inv :=
    { ids := nodup_nil
      passes := fun _ hs ↦ absurd hs not_mem_nil
      one := fun _ hs ↦ absurd hs not_mem_nil
      actual := fun ⟨_, hs, _⟩ ↦ absurd hs not_mem_nil
      unchained := fun _ ⟨_, hs, _⟩ ↦ absurd hs not_mem_nil
      acyclic := fun _ ha ↦ by
        obtain ⟨_, ⟨_, hs, -⟩, -⟩ := TransGen.head'_iff.mp ha
        exact absurd hs not_mem_nil }

theorem Good.step {kv' : KV} (h : Good kv) (hleaves : LeavesNone kv records)
    (hs : step kv records = some kv') : Good kv' := by
  obtain ⟨hcheck, hs⟩ := ite_none_right_eq_some.mp hs
  obtain rfl := some.inj hs
  have htopics : ((commitAll kv (withRelationshipCleanup kv records)).map Prod.fst).Nodup :=
    nodup_commitAll h.topics
  have hids : ((commitAll kv (withRelationshipCleanup kv records)).map (·.2.id)).Nodup := by
    refine List.Nodup.map_on (fun x hx y hy heq ↦ ?_) htopics.of_map
    obtain ⟨s, hs, hxs⟩ := (mem_cleanup h.topics).mp hx
    obtain ⟨t, ht, hyt⟩ := (mem_cleanup h.topics).mp hy
    have hid : ∀ (c : Prop) [Decidable c] (s : Signal), (if c then s else s.strip (removed kv records)).id = s.id :=
      fun c _ s ↦ by split <;> rfl
    have hst : (x.1, s) = (y.1, t) := by
      refine inj_on_of_nodup_map hleaves.1 hs ht ?_
      rw [hxs, hyt, hid, hid] at heq
      exact heq
    obtain ⟨htopic, rfl⟩ := Prod.mk.inj hst
    exact Prod.ext htopic (by rw [hxs, hyt, htopic])
  refine ⟨htopics, ?_⟩
  refine h.inv.next ?_ ?_ ?_
    (fun id (hid : decide (id ∈ changed kv (withRelationshipCleanup kv records)) = true) ↦ ?_)
  · rw [List.map_map]
    exact hids
  · rintro s hs hc
    obtain ⟨x, hx, rfl⟩ := mem_map.mp hs
    exact old_of_commitAll hx (by simpa using hc)
  · rintro s hs hc l hl
    obtain ⟨x, hx, rfl⟩ := mem_map.mp hs
    obtain ⟨y, hy, hid⟩ := h.exist hleaves hx (old_of_commitAll hx (by simpa using hc)) hl
    exact ⟨y.2, mem_map_of_mem hy, hid⟩
  · rw [checkSignalRelationships, if_neg (ne_nil_of_mem (of_decide_eq_true hid))] at hcheck
    exact hcheck

end Cleanup

/-- **Signal relationships stay well formed** in every run whose batches leave no link behind. -/
theorem relationships_well_formed (kv : KV) (h : system.Reach LeavesNone kv) :
    WellFormed (kv.map Prod.snd) := by
  have hgood : Good kv := h.invariant (I := Good) good_empty fun _ _ _ hi hc hs ↦ hi.step hc hs
  exact hgood.inv.wellFormed

/-! ### A setpoint and its actual value -/

/-- A setpoint that names its actual value, and a limit. -/
def setpoint : List StateRecord :=
  [⟨["line", "actual"], some { id := "A" }⟩,
    ⟨["line", "set"], some { id := "S", links := [⟨"actual", "A"⟩, ⟨"upper_limit", "L"⟩] }⟩,
    ⟨["line", "limit"], some { id := "L" }⟩]

/-- The setpoint moves, and the actual value is deleted in another batch. -/
def moveAndDelete : List (List StateRecord) :=
  [setpoint, [⟨["line", "set"], none⟩,
      ⟨["line", "set2"], some { id := "S", links := [⟨"actual", "A"⟩, ⟨"upper_limit", "L"⟩] }⟩],
    [⟨["line", "actual"], none⟩]]

theorem relationships_well_formed_moved : ∃ kv, system.Reach LeavesNone kv ∧
    (kv.map fun x ↦ (x.2.id, x.2.links)) = [("L", []), ("S", [⟨"upper_limit", "L"⟩])] ∧
    WellFormed (kv.map Prod.snd) := by
  obtain ⟨kv, hreach, hkv⟩ := system.exists_reach LeavesNone moveAndDelete
    (fun kv ↦ (kv.map fun x ↦ (x.2.id, x.2.links)) = [("L", []), ("S", [⟨"upper_limit", "L"⟩])])
  exact ⟨kv, hreach, hkv, relationships_well_formed kv hreach⟩

/-- Another signal is written where the actual value was: the setpoint still names the one that is gone. -/
theorem id_change_leaves_link : ¬ ∀ kv, system.Reachable kv → WellFormed (kv.map Prod.snd) := by
  intro hall
  obtain ⟨kv, hreach, s, hs, l, hl, hnone⟩ := system.exists_reachable
    [setpoint, [⟨["line", "actual"], some { id := "B" }⟩]]
    (fun kv ↦ ∃ s ∈ kv.map Prod.snd, ∃ l ∈ s.links, ∀ t ∈ kv.map Prod.snd, t.id ≠ l.target)
  obtain ⟨t, ht, hid⟩ := (hall kv hreach).exist s hs l hl
  exact hnone t ht hid

end Colca.Relationships
