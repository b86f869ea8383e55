import Colca.Edit.OnceInv

/-!
# Edit operations take effect once

The steps of a command that is not known, and of everyone else. A command commits its records at most once:
when it begins, the only commit of its operation can be a node attachment whose receipt was lost, and that one
cannot be decided again because its version is used up (`not_superseded`).

`operations_once` puts the invariant together.
-/

namespace Colca.Edit

open RecentLog List

variable {D : Type} {digest : Cmd → D} {binds : String → Bool} {s s' : State D}

/-! ### Records and versions -/

variable {kv : KV} {next next' : ℕ}

theorem Identities.mono (h : Identities kv next) (hle : next ≤ next') : Identities kv next' :=
  ⟨fun r hr ↦ (h.version r hr).trans_le hle, h.names⟩

variable {off : ℕ}

theorem Identities.commit {batch : List StateRecord} (h : Identities kv next)
    (hnames : ∀ r ∈ batch, r.Names) (hle : next ≤ next') (hoff : off + batch.length ≤ next') :
    Identities (kv.commit off batch) next' where
  version := fun x hx ↦ by
    rcases KV.mem_commit hx with ⟨hx, -⟩ | ⟨r, -, -, -, -, hlt⟩
    · exact (h.version x hx).trans_le hle
    · omega
  names := fun x hx hc ↦ by
    rcases KV.mem_commit hx with ⟨hx, -⟩ | ⟨r, hr, haddr, hpayload, -, -⟩
    · exact h.names x hx hc
    · obtain ⟨ulid, hulid, hfields⟩ := hnames r hr (haddr ▸ hc)
      obtain ⟨f, hf, rfl⟩ := hfields x.payload hpayload
      exact ⟨f, hf, haddr.trans hulid⟩

theorem Identities.refresh (h : Identities kv next) (a : Addr) : Identities (kv.refresh off a) next where
  version := fun x hx ↦ by
    rcases KV.mem_refresh hx with hx | ⟨r, hr, rfl⟩
    · exact h.version x hx
    · exact h.version r hr
  names := fun x hx hc ↦ by
    rcases KV.mem_refresh hx with hx | ⟨r, hr, rfl⟩
    · exact h.names x hx hc
    · exact h.names r hr hc

variable {c : Cmd}

theorem Superseded.mono (h : Superseded binds kv next c) (hle : next ≤ next') :
    Superseded binds kv next' c := by
  intro ulid action element hintent
  obtain ⟨v, hsent, hlt, hv⟩ := h ulid action element hintent
  exact ⟨v, hsent, hlt.trans_le hle, hv⟩

/-- A used-up version stays used up: what is written later has a later version. -/
theorem Superseded.commit (h : Superseded binds kv next c) (hle : next ≤ off) (hoff : off ≤ next')
    (batch : List StateRecord) : Superseded binds (kv.commit off batch) next' c := by
  intro ulid action element hintent
  obtain ⟨v, hsent, hlt, hv⟩ := h ulid action element hintent
  refine ⟨v, hsent, by omega, fun r hr haddr ↦ ?_⟩
  rcases KV.mem_commit hr with ⟨hr, -⟩ | ⟨x, -, -, -, hge, -⟩
  · exact hv r hr haddr
  · omega

theorem Superseded.refresh (h : Superseded binds kv next c) (a : Addr) :
    Superseded binds (kv.refresh off a) next c := by
  intro ulid action element hintent
  obtain ⟨v, hsent, hlt, hv⟩ := h ulid action element hintent
  refine ⟨v, hsent, hlt, fun r hr haddr ↦ ?_⟩
  rcases KV.mem_refresh hr with hr | ⟨x, hx, rfl⟩
  · exact hv r hr haddr
  · exact hv x hx haddr

/-- A command that is not an attachment has no such version. -/
theorem superseded_of_via (h : c.intent.via ≠ .registry) : Superseded binds kv next c := by
  intro ulid action element hintent
  exact absurd (by rw [hintent]; rfl) h

variable {plan : Plan} {ulid element : String} {action : AttachAction}

/-- An attachment that is committed uses its version up. -/
theorem Attaches.superseded {batch : List StateRecord}
    (hi : c.intent = .attachment ulid action element) (h : Attaches (c.sent binds) next plan ulid)
    (haddr : batch.map (·.addr) = [identityAddr ulid]) (hle : next ≤ next') :
    Superseded binds (kv.commit next batch) next' c := by
  intro ulid' action' element' hintent
  rw [hi] at hintent
  cases hintent
  obtain ⟨v, hsent, hlt⟩ := h.sent
  refine ⟨v, hsent, by omega, fun r hr hraddr ↦ ?_⟩
  rcases KV.mem_commit hr with ⟨-, hnot⟩ | ⟨x, -, -, -, hge, -⟩
  · rw [haddr, mem_singleton] at hnot
    exact absurd hraddr hnot
  · omega

theorem identityAddr_injective : Function.Injective identityAddr := by
  intro u v h
  simpa [identityAddr] using h

variable {r : Run} {sn : Snapshot}

/-- **An attachment whose version is used up is not decided again.** -/
theorem not_superseded (hread : readSnapshot r.seenAt = .ok sn) (hids : Identities r.seenAt next)
    (hversions : validateSuppliedVersions (r.cmd.sent binds) sn = none)
    (hi : r.cmd.intent = .attachment ulid action element) : ¬ Superseded binds r.seenAt next r.cmd := by
  intro hsup
  obtain ⟨v, hsent, -, hv⟩ := hsup ulid action element hi
  obtain ⟨x, hx, hversion⟩ := version_of_validateSuppliedVersions hversions (mem_of_lookup hsent)
  have hmem := mem_of_recordOf hread hx
  obtain ⟨hcontract, f, hobject, hulid⟩ := identity_of_recordOf hread hx
  obtain ⟨f', hobject', haddr⟩ := hids.names x hmem hcontract
  rw [hobject] at hobject'
  cases hobject'
  have hlt := hv x hmem (hulid ▸ haddr)
  omega

/-- What a decided attachment writes names its identity. -/
theorem attaches_of_compose {seen : KV} {boundTo : String → List String} {expected : Expected}
    {other : Plan} (hread : readSnapshot seen = .ok sn) (hids : Identities seen next)
    (hversions : validateSuppliedVersions expected sn = none)
    (hplan : compose binds kv boundTo expected sn other (.attachment ulid action element) = .ok plan) :
    Attaches expected next plan ulid := by
  obtain ⟨haddr, hreq⟩ := attachment_plan hplan
  refine ⟨haddr, fun x hx _ ↦ ⟨ulid, ?_, ?_⟩, ?_⟩
  · have hmem := mem_map_of_mem (f := StateRecord.addr) hx
    rw [haddr] at hmem
    exact mem_singleton.mp hmem
  · intro p hp
    simp only [compose, composeAttachment, named_eq_ok, bind_eq_ok] at hplan
    obtain ⟨_, -, _, -, hplan⟩ := hplan
    split at hplan
    · cases hplan
    · rename_i x' hx'
      simp only [bind_eq_ok] at hplan
      obtain ⟨_, -, hplan⟩ := hplan
      cases hplan
      rw [mem_singleton.mp hx] at hp
      cases hp
      refine ⟨_, rfl, ?_⟩
      rw [Fields.get_set_of_ne _ _ (by decide)]
      exact ulid_of_attachment hread hx'
    · rename_i x' hx'
      simp only [named_eq_ok, bind_eq_ok] at hplan
      obtain ⟨_, -, _, -, target, -, hplan⟩ := hplan
      cases hplan
      rw [mem_singleton.mp hx] at hp
      cases hp
      refine ⟨_, rfl, ?_⟩
      rw [Fields.get_set_of_ne _ _ (by decide)]
      exact ulid_of_attachment hread hx'
  · obtain ⟨v, hsent⟩ := Option.isSome_iff_exists.mp (required_sent hplan _ hreq)
    obtain ⟨x, hx, hversion⟩ := version_of_validateSuppliedVersions hversions (mem_of_lookup hsent)
    exact ⟨v, hsent, hversion ▸ hids.version x (mem_of_recordOf hread hx)⟩

/-- What the registry writes for an attachment names the identity. -/
theorem names_of_registryRecords {records : List StateRecord} {sent : Expected}
    (hids : Identities kv next) (ha : Attaches sent next plan ulid)
    (h : registryRecords kv plan (.attachment ulid action element) = some records) :
    (∀ x ∈ records, x.Names) ∧ records.map (·.addr) = [identityAddr ulid] := by
  cases action with
  | drain =>
    simp only [registryRecords] at h
    split at h
    · rename_i f off version hget
      cases h
      refine ⟨fun x hx _ ↦ ⟨ulid, ?_, fun p hp ↦ ?_⟩, rfl⟩
      · rw [mem_singleton.mp hx]
      · rw [mem_singleton.mp hx] at hp
        cases hp
        refine ⟨_, rfl, ?_⟩
        rw [Fields.get_set_of_ne _ _ (by decide)]
        have haddr := KV.addr_of_get hget
        obtain ⟨f', hf', hnamed⟩ := hids.names _ (mem_of_find?_eq_some hget) (by rw [haddr]; rfl)
        cases hf'
        exact (identityAddr_injective (haddr.symm.trans hnamed)).symm
    · cases h
  | remount =>
    cases h
    exact ⟨ha.names, ha.addr⟩

/-! ### Steps -/

/-- The command goes on to another phase, and nothing else changes. -/
theorem Inv.goto (h : Inv digest binds s) (hr : s.run = some r) {seenAt : KV} {phase : Phase}
    (hphase : r.phase.isFinishing = false) (hearly : phase.isEarly = true → r.phase.isEarly = true)
    (hseen : ∀ sn, phase = .seen sn → readSnapshot seenAt = .ok sn ∧ Identities seenAt s.next ∧
      ∀ x ∈ s.committed, Superseded binds seenAt s.next x)
    (hdecided : ∀ sn plan, phase = .decided sn plan → (∀ x ∈ s.committed, x.op ≠ r.cmd.op) ∧
      ∀ ulid action element, r.cmd.intent = .attachment ulid action element →
        Attaches (r.cmd.sent binds) s.next plan ulid) (hfin : phase.isFinishing = false) :
    Inv digest binds { s with run := some ⟨r.cmd, phase, seenAt⟩ } :=
  { h with
    receipts := { h.receipts with }
    running := fun r' hr' ↦ by
      cases hr'
      have hrun := h.running r hr
      exact {
        last := hrun.last
        payload := hrun.payload
        uncached := hrun.uncached
        unlogged := fun _ ↦ hrun.unlogged hphase
        early := fun he ↦ hrun.early (hearly he)
        seen := hseen
        decided := hdecided
        finishing := fun message writes hp ↦ by
          have hp : phase = .finishing message writes := hp
          rw [hp] at hfin
          cases hfin }
    told := fun a ha hcode ↦ by
      rcases h.told a ha hcode with hlogged | ⟨hun, hca, hrun⟩
      · exact .inl hlogged
      · refine .inr ⟨hun, hca, fun r' hr' ↦ ?_⟩
        cases hr'
        exact hrun r hr }

theorem Inv.decide (h : Inv digest binds s) (hr : s.run = some r) (hp : r.phase = .seen sn)
    (other : Plan) (extra : List StateRecord) (deny : Option Refusal) :
    Inv digest binds (decideCmd digest binds s r sn other extra deny) := by
  have hphase : r.phase.isFinishing = false := by rw [hp]; rfl
  have hrun := h.running r hr
  obtain ⟨hread, hids, hsup⟩ := hrun.seen sn hp
  obtain ⟨x, -, heq⟩ | ⟨x, heq⟩ | ⟨message, -, heq⟩ | ⟨plan, more, -, hversions, hplan, hmore, heq⟩ :=
    decideCmd_cases digest binds s r sn other extra deny
  · rw [heq]
    exact h.goto hr hphase (by simp [Phase.isEarly]) (by simp) (by simp) rfl
  · rw [heq]
    exact h.refuse hr rfl hphase
  · rw [heq]
    exact h.refuse hr rfl hphase
  · rw [heq]
    refine h.goto hr hphase (by simp [Phase.isEarly]) (by simp) (fun sn' plan' hp' ↦ ?_) rfl
    cases hp'
    refine ⟨fun x hx hop ↦ ?_, fun ulid action element hi ↦ ?_⟩
    · -- only an attachment can have been committed before, and its version is used up
      obtain ⟨hvia, rfl⟩ := hrun.early (by rw [hp]; rfl) x hx hop
      cases hi : r.cmd.intent with
      | attachment ulid action element => exact not_superseded hread hids hversions hi (hsup _ hx)
      | _ => simp [hi, Intent.via] at hvia
    · rw [hi] at hplan
      have hattach := attaches_of_compose hread hids hversions hplan
      rw [hmore (by simp [hi, Intent.via]), append_nil]
      exact hattach

/-- The decision is over. -/
def Phase.isLate : Phase → Bool
  | .halfway _ _ | .finishing _ _ => true
  | _ => false

/-- **The records of the command under way are committed.** -/
theorem Inv.write (h : Inv digest binds s) (hr : s.run = some r) (hlate : r.phase.isLate = true)
    (hnew : ∀ x ∈ s.committed, x.op ≠ r.cmd.op) {nextEvent : ℕ} {done : List Done}
    (hle : s.next ≤ next) (hids : Identities kv next)
    (hsup : ∀ x ∈ s.committed, Superseded binds kv next x) (hown : Superseded binds kv next r.cmd) :
    Inv digest binds { s with
      kv := kv, next := next, nextEvent := nextEvent, done := done
      committed := s.committed ++ [r.cmd] } where
  pos := h.pos.trans_le hle
  receipts := { h.receipts with }
  readable := h.readable
  keys := h.keys
  cached := h.cached
  running := fun r' hr' ↦ by
    have hrun := h.running r' hr'
    rw [Option.some.inj (hr.symm.trans hr')] at hlate
    exact { hrun with
      early := fun he ↦ by
        cases hp : r'.phase <;> simp_all [Phase.isLate, Phase.isEarly]
      seen := fun sn hp ↦ by
        rw [hp] at hlate
        cases hlate
      decided := fun sn plan hp ↦ by
        rw [hp] at hlate
        cases hlate }
  told := h.told
  repeats := h.repeats
  identities := hids
  superseded := forall_mem_concat hsup hown
  once := by
    rw [map_append, map_singleton, nodup_append]
    refine ⟨h.once, nodup_singleton _, fun a ha b hb ↦ ?_⟩
    obtain ⟨x, hx, rfl⟩ := mem_map.mp ha
    rw [mem_singleton.mp hb]
    exact hnew x hx

/-- The receipts after the next one. -/
theorem Receipts.put (h : Receipts s) (rc : Receipt D) (hlast : ∃ pre, s.ops = pre ++ [rc.op])
    (hun : s.Unlogged rc.op) (hlog : s'.log = s.log ++ [rc])
    (hrec : s'.receipts = (s.receipts.drop s.prunes).filter (·.op ≠ rc.op) ++ [rc])
    (hops : s'.ops = s.ops) (hmoved : s'.moved = s.moved) : Receipts s' := by
  -- no kept receipt is of this operation
  have hother : ∀ rc' ∈ s.receipts, rc'.op ≠ rc.op := by
    intro rc' hrc'
    obtain ⟨rc₀, hrc₀, heq⟩ := h.logged rc' hrc'
    rw [heq]
    exact hun rc₀ hrc₀
  have hfilter : (s.receipts.drop s.prunes).filter (·.op ≠ rc.op) = s.receipts.drop s.prunes :=
    filter_eq_self.mpr fun rc' hrc' ↦ by simpa using hother rc' (mem_of_mem_drop hrc')
  rw [hfilter] at hrec
  have hnodup : ∀ {l : List (Receipt D)}, (l.map (·.op)).Nodup → (∀ rc' ∈ l, rc'.op ≠ rc.op) →
      ((l ++ [rc]).map (·.op)).Nodup := by
    intro l hl hne
    rw [map_append, map_singleton, nodup_append]
    refine ⟨hl, nodup_singleton _, fun a ha b hb ↦ ?_⟩
    obtain ⟨x, hx, rfl⟩ := mem_map.mp ha
    rw [mem_singleton.mp hb]
    exact hne x hx
  exact {
    nodup := hlog ▸ hnodup h.nodup hun
    distinct := by
      rw [hrec]
      refine hnodup (h.distinct.sublist ((drop_sublist _ _).map _)) fun rc' hrc' ↦ ?_
      exact hother rc' (mem_of_mem_drop hrc')
    logged := fun rc' hrc' ↦ by
      rw [hrec] at hrc'
      rw [hlog]
      rcases mem_append.mp hrc' with hrc' | hrc'
      · obtain ⟨rc₀, hrc₀, heq⟩ := h.logged rc' (mem_of_mem_drop hrc')
        exact ⟨rc₀, mem_append_left _ hrc₀, heq⟩
      · exact ⟨rc, mem_append_right _ mem_cons_self, by rw [mem_singleton.mp hrc']⟩
    recent := fun hm ↦ by
      rw [hlog, hrec, hops]
      exact (h.recent (hmoved.symm.trans hm)).append hlast hun editReplayLimit_pos }

/-- **The receipt of the command under way is committed.** -/
theorem Inv.putReceipt (h : Inv digest binds s) (hr : s.run = some r)
    (hphase : r.phase.isFinishing = false) (n : ℕ) (rc : Receipt D) {message : String}
    {writes : List StateWrite} (hop : rc.op = r.cmd.op) (hdigest : rc.digest = digest r.cmd)
    (hreplay : ({ rc with offset := s.next + s.prunes + n } : Receipt D).replay =
      some ⟨digest r.cmd, 200, message, writes⟩) :
    Inv digest binds { s.putReceipt n rc with run := some (r.goto (.finishing message writes)) } := by
  have hrun := h.running r hr
  have hun := hrun.unlogged hphase
  have hle : s.next ≤ (s.putReceipt n rc).next := by
    show s.next ≤ s.next + s.prunes + n + 1
    omega
  exact { h with
    pos := h.pos.trans_le hle
    receipts := by
      refine h.receipts.put { rc with offset := s.next + s.prunes + n } ?_ ?_ rfl rfl rfl rfl
      · exact hop ▸ hrun.last
      · exact hop ▸ hun
    readable := fun rc' hrc' ↦ by
      rcases mem_append.mp hrc' with hrc' | hrc'
      · exact h.readable rc' hrc'
      · rw [mem_singleton.mp hrc']
        refine ⟨?_, message, writes, ?_⟩
        · show s.Of digest rc.op rc.digest
          rw [hop, hdigest]
          exact hrun.payload
        · rw [hreplay, ← hdigest]
    cached := fun x hx ↦ by
      refine ⟨(h.cached x hx).1, fun rc' hrc' hop' ↦ ?_⟩
      rcases mem_append.mp hrc' with hrc' | hrc'
      · exact (h.cached x hx).2 rc' hrc' hop'
      · rw [mem_singleton.mp hrc'] at hop'
        exact absurd (hop'.symm.trans hop) (hrun.uncached x hx)
    running := fun r' hr' ↦ by
      cases hr'
      exact { hrun with
        unlogged := by simp [Run.goto, Phase.isFinishing]
        early := by simp [Run.goto, Phase.isEarly]
        seen := by simp [Run.goto]
        decided := by simp [Run.goto]
        finishing := fun m w hp ↦ by
          cases hp
          exact ⟨_, mem_append_right _ mem_cons_self, hop, hreplay⟩ }
    told := fun a ha hcode ↦ by
      rcases h.told a ha hcode with ⟨rc', hrc', hop', hsays⟩ | ⟨hunlogged, hca, hother⟩
      · exact .inl ⟨rc', mem_append_left _ hrc', hop', hsays⟩
      · refine .inr ⟨fun rc' hrc' ↦ ?_, hca, fun r' hr' ↦ ?_⟩
        · rcases mem_append.mp hrc' with hrc' | hrc'
          · exact hunlogged rc' hrc'
          · rw [mem_singleton.mp hrc']
            exact fun heq ↦ hother r hr (hop.symm.trans heq)
        · cases hr'
          exact hother r hr
    identities := h.identities.mono hle
    superseded := fun x hx ↦ (h.superseded x hx).mono hle }

/-- A receipt written after its records has them right before it. -/
theorem replay_after (op : String) (d : D) (message : String) (hpos : 0 < next) (topics : List Addr) :
    (⟨op, d, message, topics, [], next + topics.length⟩ : Receipt D).replay =
      some ⟨d, 200, message, writesFrom next topics⟩ := by
  have hlt : ¬ next + topics.length ≤ topics.length := by omega
  simp [Receipt.replay, hlt]

/-- A receipt with coordinates gives them back. -/
theorem replay_with (op : String) (d : D) (message : String) (writes : List StateWrite)
    (hpos : 0 < off) : (⟨op, d, message, writes.map (·.addr), writes, off⟩ : Receipt D).replay =
      some ⟨d, 200, message, writes⟩ := by
  cases writes with
  | nil => simp [Receipt.replay, Nat.pos_iff_ne_zero.mp hpos, writesFrom]
  | cons w rest => simp [Receipt.replay]

theorem Inv.commitPlan (h : Inv digest binds s) (hr : s.run = some r)
    (hp : r.phase = .decided sn plan) (hs : commitPlan digest binds s r sn plan = some s') :
    Inv digest binds s' := by
  have hphase : r.phase.isFinishing = false := by rw [hp]; rfl
  obtain ⟨hnew, hattach⟩ := (h.running r hr).decided sn plan hp
  -- a commit without a receipt
  have hhalf : ∀ message writes, Inv digest binds { s with run := some (r.goto (.halfway message writes)) } :=
    fun message writes ↦ h.goto hr hphase (by simp [Phase.isEarly]) (by simp) (by simp) rfl
  unfold Edit.commitPlan at hs
  dsimp only at hs
  split at hs
  · rename_i hvia
    have hown : ∀ {kv next}, Superseded binds kv next r.cmd := superseded_of_via (by simp [hvia])
    split at hs
    · cases hs
    · rename_i hauth
      split at hs
      · cases hs
        exact h.fail hr _ hphase
      · cases hs
        have hpos : 0 < s.next + s.prunes := Nat.add_pos_left h.pos _
        have hreplay := replay_after r.cmd.op (digest r.cmd) plan.message hpos (plan.records.map (·.addr))
        rw [length_map] at hreplay
        have hput := h.putReceipt hr hphase plan.records.length
          ⟨r.cmd.op, digest r.cmd, plan.message, plan.records.map (·.addr), [], 0⟩ rfl rfl hreplay
        have hnames := names_of_authored (by simpa using hauth)
        exact hput.write rfl rfl hnew le_rfl
          (h.identities.commit hnames (by show _ ≤ s.next + s.prunes + _ + 1; omega)
            (by show _ ≤ s.next + s.prunes + _ + 1; omega))
          (fun x hx ↦ (h.superseded x hx).commit (by omega)
            (by show _ ≤ s.next + s.prunes + _ + 1; omega) _) hown
  · rename_i hvia
    cases hs
    have hown : r.cmd.intent.via ≠ .registry := by simp [hvia]
    exact (hhalf _ _).write rfl rfl hnew le_rfl h.identities h.superseded (superseded_of_via hown)
  · rename_i hvia
    obtain ⟨records, hrecords, rfl⟩ := Option.map_eq_some_iff.mp hs
    cases hi : r.cmd.intent with
    | attachment ulid action element =>
      have ha := hattach ulid action element hi
      rw [hi] at hrecords
      obtain ⟨hnames, haddr⟩ := names_of_registryRecords h.identities ha hrecords
      have hle : s.next ≤ s.next + records.length := Nat.le_add_right _ _
      exact (hhalf _ _).write rfl rfl hnew hle (h.identities.commit hnames hle le_rfl)
        (fun x hx ↦ (h.superseded x hx).commit le_rfl hle _) (ha.superseded hi haddr hle)
    | _ => simp [hi, Intent.via] at hvia

/-- Others write, and what the executor knows stays as it is. -/
theorem Inv.others (h : Inv digest binds s) (config : Option (List StateRecord))
    (hle : s.next ≤ next) (hids : Identities kv next)
    (hsup : ∀ x ∈ s.committed, Superseded binds kv next x) :
    Inv digest binds { s with kv := kv, next := next, config := config } :=
  { h with
    pos := h.pos.trans_le hle
    receipts := { h.receipts with }
    running := fun r hr ↦ by
      have hrun := h.running r hr
      exact {
        last := hrun.last
        payload := hrun.payload
        uncached := hrun.uncached
        unlogged := hrun.unlogged
        early := hrun.early
        seen := fun sn hp ↦ by
          obtain ⟨hread, hids, hsup⟩ := hrun.seen sn hp
          exact ⟨hread, hids.mono hle, fun x hx ↦ (hsup x hx).mono hle⟩
        decided := fun sn plan hp ↦ by
          obtain ⟨hnew, hattach⟩ := hrun.decided sn plan hp
          refine ⟨hnew, fun ulid action element hi ↦ ?_⟩
          obtain ⟨haddr, hnames, v, hsent, hlt⟩ := hattach ulid action element hi
          exact ⟨haddr, hnames, v, hsent, hlt.trans_le hle⟩
        finishing := hrun.finishing }
    identities := hids
    superseded := hsup }

/-- Retention appends a receipt again. -/
theorem Inv.moveReceipt (h : Inv digest binds s) {rc : Receipt D}
    (hfind : s.receipts.find? (·.op = rc.op) = some rc) :
    Inv digest binds { s with
      receipts := s.receipts.filter (·.op ≠ rc.op) ++ [{ rc with offset := s.next }]
      next := s.next + 1
      moved := true } := by
  have hle : s.next ≤ s.next + 1 := Nat.le_succ _
  have hothers := h.others s.config hle (h.identities.mono hle)
    fun x hx ↦ (h.superseded x hx).mono hle
  exact { hothers with
    receipts := {
      nodup := h.receipts.nodup
      distinct := by
        dsimp only
        rw [map_append, map_singleton, nodup_append]
        refine ⟨h.receipts.distinct.sublist (filter_sublist.map _), nodup_singleton _, ?_⟩
        intro a ha b hb
        obtain ⟨x, hx, rfl⟩ := mem_map.mp ha
        rw [mem_singleton.mp hb]
        simpa using (mem_filter.mp hx).2
      logged := fun rc' hrc' ↦ by
        rcases mem_append.mp hrc' with hrc' | hrc'
        · exact h.receipts.logged rc' (mem_filter.mp hrc').1
        · obtain ⟨rc₀, hrc₀, heq⟩ := h.receipts.logged rc (mem_of_find?_eq_some hfind)
          refine ⟨rc₀, hrc₀, ?_⟩
          rw [mem_singleton.mp hrc', heq]
      recent := fun hm ↦ by cases hm }
    running := fun r hr ↦ by
      have hrun := hothers.running r hr
      exact { hrun with } }

theorem Inv.crash (h : Inv digest binds s) :
    Inv digest binds { s with run := none, cache := [], order := [], config := none } :=
  { h with
    receipts := { h.receipts with }
    keys := nodup_nil
    cached := by simp
    running := by simp
    told := fun a ha hcode ↦ by
      rcases h.told a ha hcode with hlogged | ⟨hun, -, -⟩
      · exact .inl hlogged
      · exact .inr ⟨hun, by simp, by simp⟩ }

theorem Inv.outside (h : Inv digest binds s) {e : Event} (hs : Outside s e s') : Inv digest binds s' := by
  cases hs with
  | crash => exact h.crash
  | config c => exact h.others c le_rfl h.identities h.superseded
  | append c hnames =>
    have hle : s.next ≤ s.next + (e.batch s).length := Nat.le_add_right _ _
    exact h.others c hle (h.identities.commit hnames hle le_rfl)
      fun x hx ↦ (h.superseded x hx).commit le_rfl hle _
  | refresh a ha =>
    have hle : s.next ≤ s.next + 1 := Nat.le_succ _
    exact h.others s.config hle ((h.identities.refresh a).mono hle)
      fun x hx ↦ ((h.superseded x hx).refresh a).mono hle
  | refreshReceipt rc hfind => exact h.moveReceipt hfind

section Run

variable [DecidableEq D]

theorem Inv.step (h : Inv digest binds s) {e : Event} (hk : Kept digest s e)
    (hs : step digest binds s e = some s') : Inv digest binds s' := by
  cases e with
  | beginCmd c =>
    obtain ⟨hrun, rfl⟩ := step_beginCmd hs
    exact h.beginCmd hrun hk.1 (hk.2 c rfl)
  | snapshot =>
    obtain ⟨r, hr, hp, hcases⟩ := step_snapshot hs
    have hphase : r.phase.isFinishing = false := by rw [hp]; rfl
    rcases hcases with ⟨sn, hsn, rfl⟩ | ⟨x, rfl⟩
    · refine h.goto hr hphase (fun _ ↦ by rw [hp]; rfl) (fun sn' hp' ↦ ?_) (by simp) rfl
      cases hp'
      exact ⟨hsn, h.identities, h.superseded⟩
    · exact h.fail hr x hphase
  | decide other extra deny =>
    obtain ⟨r, sn, hr, hp, rfl⟩ := step_decide hs
    exact h.decide hr hp other extra deny
  | commit fate =>
    obtain ⟨r, sn, plan, hr, hp, hcases⟩ := step_commit hs
    have hphase : r.phase.isFinishing = false := by rw [hp]; rfl
    rcases hcases with ⟨-, hs⟩ | ⟨x, -, rfl⟩ | ⟨-, x, rfl⟩
    · exact h.commitPlan hr hp hs
    · exact h.refuse hr rfl hphase
    · exact h.fail hr x hphase
  | receipt ok =>
    obtain ⟨r, message, writes, hr, hp, hcases⟩ := step_receipt hs
    have hphase : r.phase.isFinishing = false := by rw [hp]; rfl
    rcases hcases with ⟨-, rfl⟩ | ⟨-, x, rfl⟩
    · have hpos : 0 < s.next + s.prunes + 0 := Nat.add_pos_left h.pos _
      exact h.putReceipt hr hphase 0 _ rfl rfl (replay_with r.cmd.op (digest r.cmd) message writes hpos)
    · exact h.fail hr x hphase
  | reply =>
    obtain ⟨r, message, writes, hr, hp, rfl⟩ := step_reply hs
    obtain ⟨rc, hrc, hop, hsays⟩ := (h.running r hr).finishing message writes hp
    refine h.settle hr rfl fun rc' hrc' hop' ↦ ?_
    rw [h.receipts.unique hrc' hrc (hop'.trans hop.symm), hsays]
  | _ => exact h.outside (step_outside rfl hs)

theorem Inv.initial : Inv digest binds ((machine digest binds).start) where
  pos := Nat.one_pos
  receipts := ⟨nodup_nil, nodup_nil, by simp [machine], fun _ ↦ Recent.empty⟩
  readable := by simp [machine]
  keys := nodup_nil
  cached := by simp [machine]
  running := by simp [machine]
  told := by simp [machine]
  repeats := List.Pairwise.nil
  identities := ⟨by simp [machine], by simp [machine]⟩
  superseded := by simp [machine]
  once := nodup_nil

/-- **Edit operations take effect once**, in every run in which an operation comes again within the window
and is recalled. -/
theorem operations_once (digest : Cmd → D) (binds : String → Bool) {s : State D}
    (h : (machine digest binds).Reach (Kept digest) s) : Once digest s := by
  have hinv : Inv digest binds s := h.invariant Inv.initial fun _ _ _ hI hk hs ↦ hI.step hk hs
  exact ⟨hinv.once, hinv.repeats, fun c _ hk x hx hne ↦ hinv.conflict hk hx hne⟩

end Run

/-! ### Lost and moved receipts -/

/-- A person annotates a signal. -/
def annotateCmd : Cmd := ⟨"op1", [], .annotate "a1" [("source", .str "ui")] "annotation created: a1"⟩

/-- A person creates a reference, which needs no version. -/
def createCmd : Cmd := ⟨"op2", [], .create .externalReference "x1" "" "" [("source_entity", .str "Node")]⟩

/-- The same operation with another payload. -/
def createOther : Cmd := { createCmd with intent := .delete .externalReference "x1" false }

/-- A node that is bound to no element, and digests that tell all payloads apart. -/
abbrev onceNode : StateMachine (State Cmd) Event := machine id fun _ ↦ false

/-- A command is carried through. -/
def carryOut (c : Cmd) : List Event :=
  [.beginCmd c, .snapshot, .decide noPlan [] none, .commit .done] ++
    (if c.intent.via = .state then [.reply] else [.receipt true, .reply])

/-- Both operations were committed, and four answers given. -/
def bothAnswered (s : State Cmd) : Bool :=
  s.committed.length = 2 ∧ s.answers.map (·.code) = [200, 200, 200, 200, 409]

/-- Two operations, a re-append of what they wrote, a crash, and then both again and one with another
payload. -/
theorem retried_once : ∃ s, onceNode.Reach (Kept id) s ∧ bothAnswered s = true ∧ Once id s := by
  obtain ⟨s, hs, hp⟩ := onceNode.exists_reach (Kept id) (carryOut annotateCmd ++ carryOut createCmd ++
      [.refresh ⟨.entity .externalReference, ["_colca", "external-references", "x1"]⟩, .crash,
        .beginCmd annotateCmd, .beginCmd createCmd, .beginCmd createOther]) (bothAnswered ·)
  exact ⟨s, hs, hp, operations_once id (fun _ ↦ false) hs⟩

/-- An annotation whose receipt a crash prevented is committed again, and a receipt that retention appended
again names other coordinates. -/
theorem receipts_lost_and_moved :
    (¬ ∀ s, onceNode.Reach Window s → (s.committed.map (·.op)).Nodup) ∧
      ¬ ∀ s, onceNode.Reach Window s → s.answers.Pairwise Answer.Repeats := by
  constructor
  · intro hall
    obtain ⟨s, hs, hp⟩ := onceNode.exists_reach Window
      ([.beginCmd annotateCmd, .snapshot, .decide noPlan [] none, .commit .done, .crash] ++
        carryOut annotateCmd) fun s ↦ ¬ (s.committed.map (·.op)).Nodup
    exact hp (hall s hs)
  · intro hall
    -- the retry was told something else than the 200 it got
    obtain ⟨s, hs, hp⟩ := onceNode.exists_reach Window
      (carryOut createCmd ++ [.refreshReceipt "op2", .crash, .beginCmd createCmd]) fun s ↦
        ¬ s.answers.Pairwise fun a b ↦ a.op = b.op → a.digest = b.digest → a.code = 200 → b.writes = a.writes
    exact hp ((hall s hs).imp fun h hop hdigest hcode ↦ by rw [h hop hdigest hcode])

end Colca.Edit
