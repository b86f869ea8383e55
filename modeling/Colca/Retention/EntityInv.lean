import Colca.Retention.EntityRefresh

/-!
# What holds of entities, their parent, and a refresh

Follow the last record of an entity. While it is in the stream, the uplink has yet to push it or the
parent has it (`Inv.held`, `Behind`). When a prune takes it unread, the current state still has the
entry, at an offset of the owed range; a tombstone has no entry, and must then be of an entity the parent
does not know (`State.Lost`).

What the parent shows of an entity is the newest of the records it took (`Inv.view`), and those it took
in the order of their offsets.
-/

namespace Colca.EntityRefresh

open Uns List Function HighWater

variable {env : Env} {s s' : State} {c c' : Child} {t : Topic} {x y : ℕ × RecEnc} {n : ℕ}

/-! ### The newest record of a topic -/

section Newest

variable {xs ys : List (ℕ × RecEnc)}

theorem newest_append : newest (xs ++ ys) t = (newest xs t).or (newest ys t) := find?_append

theorem newest_topic (h : newest xs t = some x) : x.2.topic = t := by
  have := find?_some h
  simpa using this

/-- Newest first, the newest record above a mark is the newest one if that is above it. -/
theorem newest_filter (hdec : xs.Pairwise (·.1 > ·.1)) (mark : ℕ) :
    newest (xs.filter fun x ↦ mark < x.1) t = (newest xs t).filter fun x ↦ mark < x.1 := by
  induction xs with
  | nil => rfl
  | cons x xs ih =>
    obtain ⟨hx, hdec⟩ := pairwise_cons.mp hdec
    by_cases hmark : mark < x.1
    · rw [filter_cons_of_pos (by simpa using hmark)]
      by_cases ht : x.2.topic = t
      · have hcons : ∀ l : List (ℕ × RecEnc), newest (x :: l) t = some x := fun l ↦
          find?_cons_of_pos (by simpa using ht)
        rw [hcons, hcons, Option.filter_some, if_pos (by simpa using hmark)]
      · have hcons : ∀ l : List (ℕ × RecEnc), newest (x :: l) t = newest l t := fun l ↦
          find?_cons_of_neg (by simpa using ht)
        rw [hcons, hcons, ih hdec]
    · -- nothing further down is above the mark either
      have hnone : (x :: xs).filter (fun x ↦ decide (mark < x.1)) = [] := by
        refine filter_eq_nil_iff.mpr fun y hy ↦ ?_
        rcases mem_cons.mp hy with rfl | hy
        · simpa using hmark
        · have := hx y hy
          simp only [decide_eq_true_eq]
          omega
      rw [hnone]
      cases hnew : newest (x :: xs) t with
      | none => rfl
      | some y =>
        have hy : y ∈ x :: xs := mem_of_find?_eq_some hnew
        have hle : ¬ mark < y.1 := by
          have := filter_eq_nil_iff.mp hnone y hy
          simpa using this
        rw [Option.filter_some, if_neg (by simpa using hle)]
        rfl

/-- Where the offsets go down, the newest record of a topic has the highest offset. -/
theorem newest_of_forall_le (hdec : xs.Pairwise (·.1 > ·.1)) (hy : y ∈ xs) (ht : y.2.topic = t)
    (hmax : ∀ x ∈ xs, x.2.topic = t → x.1 ≤ y.1) : newest xs t = some y := by
  induction xs with
  | nil => cases hy
  | cons x xs ih =>
    obtain ⟨hx, hdec⟩ := pairwise_cons.mp hdec
    rcases mem_cons.mp hy with rfl | hy
    · exact find?_cons_of_pos (by simpa using ht)
    · have hne : x.2.topic ≠ t := fun heq ↦
        absurd (hmax x mem_cons_self heq) (hx y hy).not_ge
      refine (find?_cons_of_neg (by simpa using hne)).trans (ih hdec hy fun z hz ↦ ?_)
      exact hmax z (mem_cons_of_mem _ hz)

end Newest

/-! ### The parent -/

section Parent

variable {p : Parent} {xs : List (ℕ × RecEnc)} {b : Batch}

theorem length_of_ofEntities (h : env.ofEntities t = true) : 5 ≤ t.length := by
  obtain ⟨ct, hct, -⟩ := (Option.any_eq_true _ _).mp h
  rw [contractOf] at hct
  split at hct
  · rename_i p hp
    obtain ⟨hshape, hpath, -⟩ := parse_eq_ok hp
    have := length_pos_iff.mpr hpath
    rw [hshape]
    simp only [length_cons]
    omega
  · cases hct

/-- Entities of the child stay apart at the parent. -/
theorem mountInsert_inj {t t' : Topic} (ht : env.ofEntities t = true) (ht' : env.ofEntities t' = true)
    (h : mountInsert t env.mount = mountInsert t' env.mount) : t = t' := by
  have hlen := length_of_ofEntities ht
  have hlen' := length_of_ofEntities ht'
  rw [mountInsert, mountInsert, if_neg (by omega), if_neg (by omega), append_assoc,
    append_assoc] at h
  obtain ⟨htake, hrest⟩ := append_inj h (by simp only [length_take]; omega)
  rw [← take_append_drop 4 t, ← take_append_drop 4 t', htake, append_cancel_left hrest]

theorem take_view (ht : env.isEntity t = true) : (p.take env x).view (mountInsert t env.mount) =
    if x.2.topic = t then valueOf x.2 else p.view (mountInsert t env.mount) := by
  show (if env.ofEntities x.2.topic ∧ _ then update p.view _ _ else p.view) _ = _
  obtain ⟨hof, hpath⟩ := Bool.and_eq_true_iff.mp ht
  by_cases heq : x.2.topic = t
  · have hmount : env.mount ++ t.drop 4 ≠ noPath := fun h ↦ by
      have hlen := congrArg length h
      have := length_of_ofEntities hof
      simp only [length_append, length_drop, noPath, length_singleton] at hlen
      rw [length_eq_zero_iff.mp (show env.mount.length = 0 by omega)] at h
      exact of_decide_eq_true hpath h
    rw [if_pos heq, heq, if_pos ⟨hof, hmount⟩, update_self]
  · rw [if_neg heq]
    split
    · rename_i hx
      exact update_of_ne (fun h ↦ heq (mountInsert_inj hx.1 hof h.symm)) _ _
    · rfl

/-- What storing records does to the view of one entity: the newest of its records counts. -/
theorem foldl_take_view (ht : env.isEntity t = true) :
    (xs.foldl (Parent.take env) p).view (mountInsert t env.mount) =
      ((newest xs.reverse t).map fun x ↦ valueOf x.2).getD (p.view (mountInsert t env.mount)) := by
  induction xs generalizing p with
  | nil => rfl
  | cons x xs ih =>
    rw [foldl_cons, ih, reverse_cons, newest_append]
    cases hnew : newest xs.reverse t with
    | some y => rfl
    | none =>
      rw [take_view ht]
      by_cases heq : x.2.topic = t
      · simp [newest, heq]
      · simp [newest, heq]

theorem foldl_accept_hwm : ((accept Prod.fst p.hwm xs).1.foldl (Parent.take env) p).hwm =
    highest Prod.fst p.hwm xs := by
  induction xs generalizing p with
  | nil => rfl
  | cons x xs ih =>
    rw [accept, highest_cons]
    split
    · rename_i hle
      rw [ih, max_eq_left hle]
    · rename_i hlt
      rw [foldl_cons, max_eq_right (by omega)]
      exact ih (p := p.take env x)

theorem fresh_eq (hinc : b.recs.Pairwise (·.1 < ·.1)) :
    p.fresh b = b.recs.filter fun x ↦ p.hwm < x.1 := accept_fst_of_increasing hinc

/-- The newest of the records of an entity that a batch adds. -/
theorem newest_fresh (hinc : b.recs.Pairwise (·.1 < ·.1)) :
    newest (p.fresh b).reverse t = (newest b.recs.reverse t).filter fun x ↦ p.hwm < x.1 := by
  rw [fresh_eq hinc, ← filter_reverse]
  exact newest_filter (pairwise_reverse.mpr hinc) _

/-- The mark after a batch. -/
theorem store_hwm : (p.store env b).hwm = highest Prod.fst p.hwm b.recs := foldl_accept_hwm

end Parent

/-! ### The child -/

/-- The record is one the topic has had. -/
def Known (l : KeyedLog RecEnc Topic) (x : ℕ × RecEnc) : Prop := ∃ y, l.last x.2.topic = some y ∧ x.1 ≤ y.1

/-- The stream has the last record of every topic from the low-water mark on, and the current state is
that record where it is of an entity and no tombstone. -/
structure Child.Inv (env : Env) (c : Child) : Prop where
  last_key : ∀ t y, c.stream.last t = some y → y.2.topic = t ∧ y.1 < c.log.next
  last_mem : ∀ t y, c.stream.last t = some y → c.log.lwm ≤ y.1 → y ∈ c.log.entries
  known : ∀ x ∈ c.log.entries, Known c.stream x
  kv_eq : ∀ t, c.kv.lookup t =
    if env.isEntity t then (c.stream.last t).filter fun y ↦ !isRetraction y.2 else none
  pending_le : ∀ r, c.pending = some r → r.2 ≤ c.log.next

/-- What a child does to its stream. -/
structure Child.Evolves (c c' : Child) : Prop where
  log : c.log.Evolves c'.log
  known : ∀ x, Known c.stream x → Known c'.stream x

theorem append_last (e : RecEnc) (t : Topic) : (c.append env e).stream.last t =
    if t = e.topic then some (c.log.next, e) else c.stream.last t := by
  show update c.stream.last e.topic _ t = _
  rw [update_apply]

theorem append_lookup (e : RecEnc) (t : Topic) : (c.append env e).kv.lookup t =
    if t = e.topic ∧ env.isEntity t then (if isRetraction e then none else some (c.log.next, e))
    else c.kv.lookup t := by
  show (env.project c.kv (c.log.next, e)).lookup t = _
  by_cases ht : t = e.topic
  · subst ht
    by_cases hent : env.isEntity e.topic = true
    · have hproj : env.project c.kv (c.log.next, e) =
          if isRetraction e then c.kv.erase e.topic else c.kv.insert e.topic (c.log.next, e) := if_pos hent
      rw [if_pos (⟨rfl, hent⟩ : e.topic = e.topic ∧ _), hproj]
      cases isRetraction e
      · exact AList.lookup_insert _
      · exact AList.lookup_erase _ _
    · have hproj : env.project c.kv (c.log.next, e) = c.kv := if_neg hent
      rw [hproj, if_neg fun h ↦ hent h.2]
  · rw [if_neg fun h ↦ ht h.1, Env.project]
    split
    · split
      · exact AList.lookup_erase_ne ht
      · exact AList.lookup_insert_ne ht
    · rfl

theorem Child.Inv.evolves_append (hi : c.Inv env) (e : RecEnc) : c.Evolves (c.append env e) where
  log := c.log.evolves_append e
  known x := by
    rintro ⟨y, hy, hle⟩
    by_cases ht : x.2.topic = e.topic
    · refine ⟨(c.log.next, e), by rw [append_last, if_pos ht], ?_⟩
      exact hle.trans (hi.last_key _ y hy).2.le
    · exact ⟨y, by rw [append_last, if_neg ht]; exact hy, hle⟩

theorem Child.Inv.append (hi : c.Inv env) (e : RecEnc) : (c.append env e).Inv env where
  last_key t y hy := by
    rw [append_last] at hy
    split at hy
    · rename_i ht
      cases hy
      exact ⟨ht.symm, Nat.lt_succ_self _⟩
    · exact ⟨(hi.last_key t y hy).1, Nat.lt_succ_of_lt (hi.last_key t y hy).2⟩
  last_mem t y hy hle := by
    rw [append_last] at hy
    split at hy
    · cases hy
      exact mem_append_right _ (mem_singleton_self _)
    · exact mem_append_left _ (hi.last_mem t y hy hle)
  known := forall_mem_concat (fun x hx ↦ (hi.evolves_append e).known x (hi.known x hx))
    ⟨(c.log.next, e), by rw [append_last, if_pos rfl], le_rfl⟩
  kv_eq t := by
    rw [append_lookup, append_last]
    by_cases ht : t = e.topic
    · by_cases hent : env.isEntity t = true
      · rw [if_pos ⟨ht, hent⟩, if_pos hent, if_pos ht, Option.filter_some]
        cases isRetraction e <;> rfl
      · rw [if_neg fun h ↦ hent h.2, if_neg hent, hi.kv_eq t, if_neg hent]
    · rw [if_neg fun h ↦ ht h.1, if_neg ht]
      exact hi.kv_eq t
  pending_le r hr := Nat.le_succ_of_le (hi.pending_le r hr)

theorem Child.evolves_pruneLog (c : Child) (m : ℕ) : c.Evolves (c.pruneLog m) :=
  ⟨c.log.evolves_prune m, fun _ h ↦ h⟩

theorem Child.Inv.pruneLog (hi : c.Inv env) (m : ℕ) : (c.pruneLog m).Inv env :=
  { hi with
    last_mem t y hy hle := by
      have hle : max c.log.lwm (min m c.log.next) ≤ y.1 := hle
      exact mem_filter.mpr ⟨hi.last_mem t y hy ((le_max_left _ _).trans hle), by simpa using hle⟩
    known x hx := hi.known x (mem_of_mem_filter hx) }

/-- An entry of the current state is the last record of its topic. -/
theorem Child.Inv.last_of_lookup (hi : c.Inv env) (h : c.kv.lookup t = some x) :
    env.isEntity t = true ∧ c.stream.last t = some x := by
  rw [hi.kv_eq] at h
  split at h
  · rename_i hent
    exact ⟨hent, (Option.filter_eq_some_iff.mp h).1⟩
  · cases h

/-! ### The invariant -/

/-- Below `n` the parent has every record that is there and rises. -/
structure Behind (c : Child) (taken : List (ℕ × RecEnc)) (n : ℕ) : Prop where
  le_next : n ≤ c.log.next
  taken : ∀ x ∈ c.log.entries, rises x.2 = true → x.1 < n → x ∈ taken

theorem Behind.evolves {taken : List (ℕ × RecEnc)} (h : Behind c taken n) (hev : c.Evolves c') :
    Behind c' taken n where
  le_next := h.le_next.trans hev.log.next_le
  taken x hx hr hlt := h.taken x (hev.log.mem_of_lt hx (hlt.trans_le h.le_next)) hr hlt

theorem Behind.mono {taken taken' : List (ℕ × RecEnc)} (h : Behind c taken n)
    (hsub : ∀ x ∈ taken, x ∈ taken') : Behind c taken' n :=
  ⟨h.le_next, fun x hx hr hlt ↦ hsub x (h.taken x hx hr hlt)⟩

/-- What is known of a batch that may still arrive. -/
structure Batch.Valid (c : Child) (taken : List (ℕ × RecEnc)) (b : Batch) : Prop where
  le_next : b.next ≤ c.log.next
  increasing : b.recs.Pairwise (·.1 < ·.1)
  known : ∀ x ∈ b.recs, Known c.stream x ∧ x.1 < b.next
  taken : ∀ x ∈ c.log.entries, rises x.2 = true → x.1 < b.next → x ∈ taken ∨ x ∈ b.recs

theorem Batch.Valid.evolves {taken : List (ℕ × RecEnc)} {b : Batch} (h : b.Valid c taken)
    (hev : c.Evolves c') : b.Valid c' taken where
  le_next := h.le_next.trans hev.log.next_le
  increasing := h.increasing
  known x hx := ⟨hev.known x (h.known x hx).1, (h.known x hx).2⟩
  taken x hx hr hlt := h.taken x (hev.log.mem_of_lt hx (hlt.trans_le h.le_next)) hr hlt

/-- The refresh under way: what is owed of the keys it has gone past is in its queue. -/
structure Refresh.Valid (env : Env) (c : Child) (r : Refresh) : Prop where
  pending : c.pending = some r.range
  queued : ∀ t x, c.kv.lookup t = some x → r.range.1 ≤ x.1 → x.1 < r.range.2 → r.ahead env t = false →
    r.failed = true ∨ ∃ q ∈ r.queue, q.2.topic = t ∧ q.1 = x.1

/-- **The last record of an entity, pruned before the parent took it.** An entry is owed; a tombstone is
of an entity the parent does not know. -/
def State.Lost (env : Env) (s : State) : Prop :=
  ∀ t y, env.isEntity t = true → Uplink.pushable .entities t = true → s.child.stream.last t = some y →
    y.1 < s.child.log.lwm → y ∉ s.taken →
      (isRetraction y.2 = false → ∃ r, s.child.pending = some r ∧ r.1 ≤ y.1 ∧ y.1 < r.2) ∧
      (isRetraction y.2 = true → s.unknown env t = true)

structure Inv (env : Env) (s : State) : Prop where
  child : s.child.Inv env
  decreasing : s.taken.Pairwise (·.1 > ·.1)
  taken : ∀ x ∈ s.taken, x.1 ≤ s.parent.hwm ∧ Known s.child.stream x
  hwm_lt : s.parent.hwm < s.child.log.next
  view : ∀ t, env.isEntity t = true →
    s.parent.view (mountInsert t env.mount) = (newest s.taken t).bind fun x ↦ valueOf x.2
  held : ∀ x ∈ s.child.log.entries, rises x.2 = true → x.1 ≤ s.parent.hwm → x ∈ s.taken
  cursor : Behind s.child s.taken s.child.cursor
  placed : ∀ n, s.placed = some n → Behind s.child s.taken n
  pass : ∀ p, s.pass = some p → s.refresh = none ∧ ∀ n, p.uplink = some n → Behind s.child s.taken n
  sent : ∀ b ∈ s.sent, b.Valid s.child s.taken
  refresh : ∀ r, s.refresh = some r → r.Valid env s.child
  lost : s.Lost env

/-- The child moves on; the rest of the system looks at it. -/
theorem Inv.evolves (hi : Inv env s) (hev : s.child.Evolves c') (hc : c'.Inv env)
    (hcur : c'.cursor = s.child.cursor) (hr : ∀ r, s.refresh = some r → r.Valid env c')
    (hlost : State.Lost env { s with child := c' }) : Inv env { s with child := c' } where
  child := hc
  decreasing := hi.decreasing
  taken x hx := ⟨(hi.taken x hx).1, hev.known x (hi.taken x hx).2⟩
  hwm_lt := hi.hwm_lt.trans_le hev.log.next_le
  view := hi.view
  held x hx hrise hle := hi.held x (hev.log.mem_of_lt hx (hle.trans_lt hi.hwm_lt)) hrise hle
  cursor := by
    show Behind c' s.taken c'.cursor
    rw [hcur]
    exact hi.cursor.evolves hev
  placed n hn := (hi.placed n hn).evolves hev
  pass p hp := ⟨(hi.pass p hp).1, fun n hn ↦ ((hi.pass p hp).2 n hn).evolves hev⟩
  sent b hb := (hi.sent b hb).evolves hev
  refresh := hr
  lost := hlost

end Colca.EntityRefresh
