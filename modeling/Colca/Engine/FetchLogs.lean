import Colca.Store.SeekTS
import Mathlib.Tactic.SplitIfs

/-!
# Log retrieval by pages

`fetchLogs` answers one page of a node's logs stream for a time window. The records of the stream are
mostly in time order, none of them more than `skew` behind one before it: a page starts its search `skew`
before the window, and the window is over at a record `skew` past its end. The number of records a page
examines, their bytes and the limit of the request end it earlier; the next page resumes after it.

Following the pages until one is complete or has seen the head retrieves the records of the window before
the first one that ends it (`retrieve_eq`). These are all of them (`retrieves_all_iff`), unless the end of
the window is so late that `skew` past it is no timestamp: `addSat` then holds it at the last timestamp
there is, and a record with that timestamp ends the window too early.
-/

namespace Colca.FetchLogs

open Uns List Option

/-! ### Timestamps -/

def maxInt64 : ℤ := 2 ^ 63 - 1

def minInt64 : ℤ := -2 ^ 63

def IsInt64 (z : ℤ) : Prop := minInt64 ≤ z ∧ z ≤ maxInt64

/-- `addSat`: the sum wraps, and is held at the bounds instead. -/
def addSat (a b : ℤ) : ℤ :=
  let s := (a + b).bmod (2 ^ 64)
  if 0 < b ∧ s < a then maxInt64 else if b < 0 ∧ a < s then minInt64 else s

/-- `FetchLogsSkew` in milliseconds. -/
def skew : ℤ := 3600000

variable {x : ℕ × RecEnc} {ys zs : List (ℕ × RecEnc)} {now : ℕ → ℤ} {a : ℤ} {o : ℕ}

theorem addSat_skew (h : IsInt64 a) : addSat a skew = min (a + skew) maxInt64 := by
  obtain ⟨hlo, hhi⟩ := h
  simp only [addSat, Int.bmod_def, minInt64, maxInt64, skew] at *
  split_ifs <;> omega

theorem addSat_neg_skew (h : IsInt64 a) : addSat a (-skew) = max (a - skew) minInt64 := by
  obtain ⟨hlo, hhi⟩ := h
  simp only [addSat, Int.bmod_def, minInt64, maxInt64, skew] at *
  split_ifs <;> omega

/-! ### Queries -/

/-- `logLevels`: the rank of the level segment of a `_Log` topic, 0 when it has none. -/
def levelRank (level : String) : ℕ :=
  if level = "DEBUG" then 10
  else if level = "INFO" then 20
  else if level = "WARNING" then 30
  else if level = "ERROR" then 40
  else if level = "CRITICAL" then 50
  else 0

/-- `fetchLogsQuery`, as `parseFetchLogs` lets it through. -/
structure Query where
  from_ : ℤ
  to_ : ℤ
  /-- The page resumes an earlier one. -/
  after : Option ℕ := none
  limit : ℕ
  minLevel : ℕ
  service : String
  from_lt : from_ < to_
  from_int64 : IsInt64 from_
  to_int64 : IsInt64 to_
  limit_pos : 1 ≤ limit

/-- `matches`: a `_Log` record the query keeps, apart from its timestamp. -/
def Query.matches (q : Query) (topic : Topic) : Bool :=
  match parse topic with
  | .error _ => false
  | .ok p =>
    if p.contract ≠ "_Log" then false
    else
      match p.path.reverse with
      | level :: service :: _ =>
        if q.service ≠ "" ∧ service ≠ q.service then false
        else decide (q.minLevel ≤ levelRank "DEBUG") || decide (q.minLevel ≤ levelRank level)
      | _ => false

/-- A record the query asks for. -/
def Query.wants (q : Query) (x : ℕ × RecEnc) : Bool :=
  decide (q.from_ ≤ x.2.ts) && decide (x.2.ts < q.to_) && q.matches x.2.topic

/-! ### Entries -/

/-- `FetchLogsRecord`. -/
structure FetchLogsRecord where
  offset : ℕ
  ts : ℤ
  topic : Topic
  payload : Option Payload
  truncated : Bool := false
  deriving DecidableEq, Repr

/-- The bytes that `nestedDeeperThan` looks at. -/
structure Nesting where
  depth : ℤ := 0
  inString : Bool := false
  escaped : Bool := false

/-- `nestedDeeperThan`, from a state of its scan on. -/
def nestedFrom (limit : ℤ) : Nesting → Payload → Bool
  | _, [] => false
  | s, c :: cs =>
    if s.inString then
      if s.escaped then nestedFrom limit { s with escaped := false } cs
      else if c = 92 then nestedFrom limit { s with escaped := true } cs
      else nestedFrom limit { s with inString := c ≠ 34 } cs
    else if c = 34 then nestedFrom limit { s with inString := true } cs
    else if c = 123 ∨ c = 91 then
      if limit < s.depth + 1 then true else nestedFrom limit { s with depth := s.depth + 1 } cs
    else if c = 125 ∨ c = 93 then nestedFrom limit { s with depth := s.depth - 1 } cs
    else nestedFrom limit s cs

def nestedDeeperThan (payload : Payload) (limit : ℤ) : Bool := nestedFrom limit {} payload

/-- `MaxPayloadDepth`. -/
def maxPayloadDepth : ℤ := 32

/-- How deeply the ack nests a record's payload. -/
def fetchLogsEntryDepth : ℤ := 4

/-- The JSON library: which payloads are JSON, and the bytes of an encoded entry with its comma. -/
structure LogCodec where
  valid : Payload → Bool
  size : FetchLogsRecord → ℕ

def FetchLogsRecord.truncate (x : FetchLogsRecord) : FetchLogsRecord :=
  { x with payload := none, truncated := true }

/-- The entry of a record. A payload too large or too deep to carry is left out. -/
def entryOf (c : LogCodec) (maxBytes : ℕ) (x : ℕ × RecEnc) : FetchLogsRecord :=
  let entry : FetchLogsRecord := ⟨x.1, x.2.ts, x.2.topic, some x.2.payload, false⟩
  let entry :=
    if !c.valid x.2.payload || nestedDeeperThan x.2.payload (maxPayloadDepth - fetchLogsEntryDepth) then
      entry.truncate
    else entry
  if maxBytes < c.size entry then entry.truncate else entry

/-! ### A page -/

/-- `fetchLogsBudget`: the bytes of a page and the records it examines. -/
structure Budget where
  bytes : ℕ
  scan : ℕ

/-- `FetchLogsMaxResultBytes`. -/
def maxResultBytes : ℕ := 256 * 2 ^ 10

/-- `fetchLogsBudgetFor`: half a record at most, so that the ack always fits. -/
def fetchLogsBudgetFor (maxRecordBytes : ℕ) : Budget where
  bytes := if 0 < maxRecordBytes ∧ maxRecordBytes / 2 < maxResultBytes then maxRecordBytes / 2
    else maxResultBytes
  scan := 50000

/-- What a page has done so far. -/
structure Scan where
  records : List FetchLogsRecord := []
  /-- The last offset the page has dealt with. -/
  last : ℕ
  used : ℕ := 0
  scanned : ℕ := 0

/-- What ended a page. -/
inductive Ended
  /-- No record is left. -/
  | head
  /-- One of the budgets. -/
  | budget
  /-- A record past the window. -/
  | window
  deriving DecidableEq, Repr

def Scan.pass (s : Scan) (x : ℕ × RecEnc) : Scan := { s with last := x.1, scanned := s.scanned + 1 }

def Scan.take (s : Scan) (x : ℕ × RecEnc) (entry : FetchLogsRecord) (size : ℕ) : Scan where
  records := s.records ++ [entry]
  last := x.1
  used := s.used + size
  scanned := s.scanned + 1

variable (c : LogCodec) (q : Query) (b : Budget)

/-- The page over the records that are left. -/
def scanLogs (doneAt : ℤ) : Scan → List (ℕ × RecEnc) → Scan × Ended
  | s, [] => (s, .head)
  | s, x :: xs =>
    if b.scan ≤ s.scanned then (s, .budget)
    else if doneAt ≤ x.2.ts then (s, .window)
    else if q.wants x = false then scanLogs doneAt (s.pass x) xs
    else
      let entry := entryOf c b.bytes x
      -- the first record of a page always fits
      if 0 < s.used ∧ b.bytes < s.used + c.size entry then (s, .budget)
      else
        let s := s.take x entry (c.size entry)
        if q.limit ≤ s.records.length then (s, .budget) else scanLogs doneAt s xs

/-- A logs stream, as `fetchLogs` reads it. -/
structure LogStream where
  disk : Disk
  lwm : ℕ
  head : ℕ
  lwm_pos : 1 ≤ lwm
  within : ∀ o e, recordAt disk .logs o = some e → lwm ≤ o ∧ o < head
  ts_int64 : ∀ o e, recordAt disk .logs o = some e → IsInt64 e.ts

/-- Its records. -/
def LogStream.records (L : LogStream) : List (ℕ × RecEnc) := recordsIn L.disk .logs L.lwm L.head

/-- `FetchLogsResult`. -/
structure Result where
  records : List FetchLogsRecord
  /-- Where the following page resumes. -/
  next : Option ℕ
  complete : Bool
  lwm : ℕ
  gap : Bool
  deriving DecidableEq, Repr

variable (L : LogStream)

/-- The offset the search finds. -/
def seek : ℕ := seekTS L.disk .logs L.lwm L.head (addSat q.from_ (-skew))

/-- Where the page starts. -/
def start : ℕ :=
  max 1 (match q.after with
    | some after => max (seek q L) (after + 1)
    | none => seek q L)

/-- Whether retention took records the page should have started with. -/
def gap : Bool :=
  match q.after with
  | some after => decide (1 < L.lwm) && decide (after + 1 < L.lwm)
  | none => decide (1 < L.lwm) && decide (seek q L ≤ L.lwm)

/-- The timestamp that ends the window. -/
def doneAt : ℤ := addSat q.to_ skew

/-- The records a page sees, and what ended it. -/
def page : Scan × Ended :=
  scanLogs c q b (doneAt q) { last := start q L - 1 } (recordsIn L.disk .logs (start q L) L.head)

/-- Whether a page completes its window. At the head it does once no record can be appended to it. -/
def completes (now : ℤ) : Bool :=
  match (page c q b L).2 with
  | .window => true
  | .budget => false
  | .head => decide (doneAt q ≤ now)

/-- `fetchLogs`. -/
def fetchLogs (now : ℤ) : Result where
  records := (page c q b L).1.records
  next := if completes c q b L now then none else some (page c q b L).1.last
  complete := completes c q b L now
  lwm := L.lwm
  gap := gap q L

/-- **The pages of a retrieval**, at the times they are answered: until one is complete, or has reached
the head. -/
def retrieve : ℕ → (ℕ → ℤ) → Query → Option (List Result)
  | 0, _, _ => none
  | n + 1, now, q =>
    if completes c q b L (now 0) ∨ (page c q b L).2 = .head then some [fetchLogs c q b L (now 0)]
    else
      (retrieve n (fun k ↦ now (k + 1)) { q with after := some (page c q b L).1.last }).map
        (fetchLogs c q b L (now 0) :: ·)

/-! ### What a retrieval is to give -/

/-- No record is more than `skew` older than one before it. -/
def LogStream.InOrder : Prop :=
  ∀ x ∈ L.records, ∀ y ∈ L.records, x.1 < y.1 → x.2.ts - skew ≤ y.2.ts

/-- **The retrieval is complete**: it ends, it gives the records the query asks for, each once and in
order, and every page before the last moves the position forward. -/
def RetrievesAll (now : ℕ → ℤ) : Prop :=
  ∃ n pages, retrieve c b L n now q = some pages ∧
    pages.flatMap Result.records = (L.records.filter q.wants).map (entryOf c b.bytes) ∧
    (0 :: pages.dropLast.filterMap Result.next).IsChain (· < ·)

/-- **The end of the window can be told**: `skew` past it is a timestamp, or no record that the query asks
for follows one with the last timestamp there is. -/
def EndTold : Prop :=
  q.to_ + skew ≤ maxInt64 ∨
    ∀ x ∈ L.records, ∀ y ∈ L.records, x.1 < y.1 → x.2.ts = maxInt64 → q.wants y = false

/-! ### A scan -/

variable {c q b L} {s : Scan} {xs : List (ℕ × RecEnc)} {endTS : ℤ}

/-- **What a scan has seen.** -/
structure Seen (c : LogCodec) (q : Query) (b : Budget) (endTS : ℤ) (s : Scan) (xs : List (ℕ × RecEnc))
    (r : Scan × Ended) (ys zs : List (ℕ × RecEnc)) : Prop where
  split : xs = ys ++ zs
  young : ∀ y ∈ ys, y.2.ts < endTS
  records : r.1.records = s.records ++ (ys.filter q.wants).map (entryOf c b.bytes)
  last : r.1.last = (ys.getLast?.map Prod.fst).getD s.last
  head : r.2 = .head → zs = []
  window : r.2 = .window → ∃ z zs', zs = z :: zs' ∧ endTS ≤ z.2.ts
  /-- A budget does not end a page before its first record. -/
  budget : r.2 = .budget → ys = [] → b.scan ≤ s.scanned ∨ 0 < s.used

theorem Seen.stop {e : Ended} (hhead : e = .head → xs = [])
    (hwindow : e = .window → ∃ z zs', xs = z :: zs' ∧ endTS ≤ z.2.ts)
    (hbudget : e = .budget → b.scan ≤ s.scanned ∨ 0 < s.used) : Seen c q b endTS s xs (s, e) [] xs :=
  ⟨rfl, fun _ h ↦ (nomatch h), (append_nil _).symm, rfl, hhead, hwindow, fun h _ ↦ hbudget h⟩

/-- One record is seen, and then others. -/
theorem Seen.cons {r : Scan × Ended} {s' : Scan} (hx : x.2.ts < endTS) (hlast : s'.last = x.1)
    (hrecords : s'.records = s.records ++ ([x].filter q.wants).map (entryOf c b.bytes))
    (h : Seen c q b endTS s' xs r ys zs) : Seen c q b endTS s (x :: xs) r (x :: ys) zs where
  split := congrArg (x :: ·) h.split
  young y hy := by
    rcases mem_cons.mp hy with rfl | hy
    · exact hx
    · exact h.young y hy
  records := by
    rw [h.records, hrecords, append_assoc, ← map_append, ← filter_append]
    rfl
  last := by
    rw [h.last, hlast]
    cases ys with
    | nil => rfl
    | cons y ys => rw [getLast?_cons_cons]; rfl
  head := h.head
  window := h.window
  budget _ hne := nomatch hne

theorem scanLogs_seen (s : Scan) (xs : List (ℕ × RecEnc)) :
    ∃ ys zs, Seen c q b endTS s xs (scanLogs c q b endTS s xs) ys zs := by
  induction xs generalizing s with
  | nil => exact ⟨[], [], .stop (fun _ ↦ rfl) nofun nofun⟩
  | cons x xs ih =>
    rw [scanLogs]
    split
    · rename_i hscan
      exact ⟨[], _, .stop nofun nofun fun _ ↦ .inl hscan⟩
    · split
      · rename_i hdone
        exact ⟨[], _, .stop nofun (fun _ ↦ ⟨x, xs, rfl, hdone⟩) nofun⟩
      · rename_i hyoung
        have hyoung := Int.not_le.mp hyoung
        split
        · rename_i hwants
          obtain ⟨ys, zs, h⟩ := ih (s.pass x)
          exact ⟨x :: ys, zs, .cons hyoung rfl (by simp [hwants, Scan.pass]) h⟩
        · rename_i hwants
          have hwants := Bool.of_not_eq_false hwants
          dsimp only
          split
          · rename_i hfull
            exact ⟨[], _, .stop nofun nofun fun _ ↦ .inr hfull.1⟩
          · have htake : (s.take x (entryOf c b.bytes x) (c.size (entryOf c b.bytes x))).records =
                s.records ++ ([x].filter q.wants).map (entryOf c b.bytes) := by
              simp [hwants, Scan.take]
            split
            · refine ⟨[x], xs, rfl, fun y hy ↦ ?_, htake, rfl, nofun, nofun, nofun⟩
              exact mem_singleton.mp hy ▸ hyoung
            · obtain ⟨ys, zs, h⟩ := ih (s.take x (entryOf c b.bytes x) (c.size (entryOf c b.bytes x)))
              exact ⟨x :: ys, zs, .cons hyoung rfl htake h⟩

/-! ### Pages -/

theorem takeWhile_of_young (h : ∀ y ∈ ys, y.2.ts < endTS) :
    (ys ++ zs).takeWhile (fun x ↦ decide (x.2.ts < endTS)) =
      ys ++ zs.takeWhile fun x ↦ decide (x.2.ts < endTS) :=
  takeWhile_append_of_pos fun y hy ↦ decide_eq_true (h y hy)

/-- The records a page is to go through. -/
def ahead (q : Query) (L : LogStream) : List (ℕ × RecEnc) := recordsIn L.disk .logs (start q L) L.head

/-- Those of them before the end of the window. -/
def before (q : Query) (xs : List (ℕ × RecEnc)) : List (ℕ × RecEnc) :=
  xs.takeWhile fun x ↦ decide (x.2.ts < doneAt q)

theorem seek_le_start : seek q L ≤ start q L := by
  unfold start
  split <;> omega

theorem start_pos : 1 ≤ start q L := le_max_left _ _

theorem start_after (h : start q L ≤ o) : start { q with after := some o } L = o + 1 := by
  have hseek : seek q L ≤ o := seek_le_start.trans h
  show max 1 (max (seek q L) (o + 1)) = o + 1
  omega

/-- **What a page does**: it sees the rest of the window, or it goes forward and leaves the rest to the
page after it. -/
theorem page_cases (hscan : 0 < b.scan) (now : ℤ) :
    ((completes c q b L now = true ∨ (page c q b L).2 = .head) ∧
      (page c q b L).1.records = ((before q (ahead q L)).filter q.wants).map (entryOf c b.bytes)) ∨
    (completes c q b L now = false ∧ (page c q b L).2 ≠ .head ∧ start q L ≤ (page c q b L).1.last ∧
      (ahead { q with after := some (page c q b L).1.last } L).length < (ahead q L).length ∧
      (page c q b L).1.records ++
        ((before q (ahead { q with after := some (page c q b L).1.last } L)).filter q.wants).map
          (entryOf c b.bytes) = ((before q (ahead q L)).filter q.wants).map (entryOf c b.bytes)) := by
  obtain ⟨ys, zs, h⟩ : ∃ ys zs, Seen c q b (doneAt q) { last := start q L - 1 } (ahead q L)
    (page c q b L) ys zs := scanLogs_seen _ _
  have hrecords : (page c q b L).1.records = (ys.filter q.wants).map (entryOf c b.bytes) := h.records
  have hbefore : before q (ahead q L) = ys ++ before q zs := by
    rw [h.split]
    exact takeWhile_of_young h.young
  cases hend : (page c q b L).2 with
  | head =>
    refine .inl ⟨.inr rfl, ?_⟩
    rw [hrecords, hbefore, h.head hend]
    exact congrArg _ (congrArg _ (append_nil ys).symm)
  | window =>
    refine .inl ⟨.inl (by simp only [completes, hend]), ?_⟩
    obtain ⟨z, zs', rfl, hz⟩ := h.window hend
    have hnone : before q (z :: zs') = [] :=
      takeWhile_cons_of_neg (by simpa using hz)
    rw [hrecords, hbefore, hnone, append_nil]
  | budget =>
    have hne : ys ≠ [] := fun hnil ↦ by
      rcases h.budget hend hnil with hle | hlt
      · exact absurd hle hscan.not_ge
      · exact absurd hlt (Nat.lt_irrefl 0)
    obtain ⟨ys, x, rfl⟩ := eq_nil_or_concat ys |>.resolve_left hne
    have hlast : (page c q b L).1.last = x.1 := by simp [h.last]
    have hmem : x ∈ ahead q L := by rw [h.split]; simp
    have hstart : start q L ≤ x.1 := (mem_recordsIn.mp hmem).1
    have hahead : ahead { q with after := some x.1 } L = zs := by
      rw [ahead, start_after hstart]
      have hsplit : recordsIn L.disk .logs (start q L) L.head = ys ++ x :: zs := by
        rw [← ahead, h.split]
        simp
      exact recordsIn_after hsplit
    refine .inr ⟨by simp only [completes, hend], nofun, ?_⟩
    rw [hlast, hahead, hrecords, hbefore, filter_append, map_append]
    refine ⟨hstart, ?_, rfl⟩
    rw [h.split]
    simp only [concat_eq_append, append_assoc, length_append, length_cons]
    omega

theorem retrieve_ne_nil {n : ℕ} {pages : List Result}
    (h : retrieve c b L n now q = some pages) : pages ≠ [] := by
  cases n with
  | zero => cases h
  | succ n =>
    rw [retrieve] at h
    split at h
    · cases h
      exact cons_ne_nil _ _
    · obtain ⟨ps, -, rfl⟩ := map_eq_some_iff.mp h
      exact cons_ne_nil _ _

/-- **What the pages give**: the records of the window up to the first that ends it. -/
theorem retrieve_ahead (hscan : 0 < b.scan) (m : ℕ) : ∀ (q : Query) (now : ℕ → ℤ),
    (ahead q L).length ≤ m → ∃ n pages, retrieve c b L n now q = some pages ∧
      pages.flatMap Result.records = ((before q (ahead q L)).filter q.wants).map (entryOf c b.bytes) ∧
      ((start q L - 1) :: pages.dropLast.filterMap Result.next).IsChain (· < ·) := by
  -- every page but the last leaves fewer records to the next
  induction m with
  | zero =>
    intro q now hlen
    rcases page_cases (c := c) (q := q) (L := L) hscan (now 0) with ⟨hend, hrecs⟩ | ⟨-, -, -, hlt, -⟩
    · refine ⟨1, _, if_pos hend, ?_, List.IsChain.singleton _⟩
      rw [flatMap_singleton]
      exact hrecs
    · omega
  | succ m ih =>
    intro q now hlen
    rcases page_cases (c := c) (q := q) (L := L) hscan (now 0) with
      ⟨hend, hrecs⟩ | ⟨hopen, hhead, hstart, hlt, hrecs⟩
    · refine ⟨1, _, if_pos hend, ?_, List.IsChain.singleton _⟩
      rw [flatMap_singleton]
      exact hrecs
    · obtain ⟨n, pages, hpages, hall, hchain⟩ :=
        ih { q with after := some (page c q b L).1.last } (fun k ↦ now (k + 1)) (by omega)
      rw [start_after hstart] at hchain
      have hnext : (fetchLogs c q b L (now 0)).next = some (page c q b L).1.last := by
        simp only [fetchLogs, hopen]
        rfl
      refine ⟨n + 1, fetchLogs c q b L (now 0) :: pages, ?_, ?_, ?_⟩
      · rw [retrieve, if_neg (by simp [hopen, hhead]), hpages]
        rfl
      · rw [flatMap_cons, hall]
        exact hrecs
      · rw [dropLast_cons_of_ne_nil (retrieve_ne_nil hpages), filterMap_cons_some hnext]
        exact .cons_cons (by have := start_pos (q := q) (L := L); omega) hchain

/-- A retrieval ends one way only. -/
theorem retrieve_unique {n n' : ℕ} {pages pages' : List Result}
    (h : retrieve c b L n now q = some pages) (h' : retrieve c b L n' now q = some pages') :
    pages = pages' := by
  induction n generalizing n' now q pages pages' with
  | zero => cases h
  | succ n ih =>
    cases n' with
    | zero => cases h'
    | succ n' =>
      rw [retrieve] at h h'
      split at h
      · rename_i hend
        rw [if_pos hend] at h'
        exact some.inj (h.symm.trans h')
      · rename_i hend
        rw [if_neg hend] at h'
        obtain ⟨ps, hps, rfl⟩ := map_eq_some_iff.mp h
        obtain ⟨ps', hps', rfl⟩ := map_eq_some_iff.mp h'
        rw [ih hps hps']

/-! ### The window -/

/-- The records below the start of the first page are older than the window. -/
theorem lt_from_of_lt_start (hord : L.InOrder) (hafter : q.after = none)
    (hx : x ∈ L.records) (hlt : x.1 < start q L) : x.2.ts < q.from_ := by
  obtain ⟨hlo, -, he⟩ := mem_recordsIn.mp hx
  have hseek : x.1 < seek q L := by
    rw [start, hafter] at hlt
    have := L.lwm_pos
    dsimp only at hlt
    omega
  obtain ⟨o, e, hle, hoe, hts⟩ := seekTS_spec L.within L.lwm_pos he hseek
  obtain ⟨hlwm, hhead⟩ := L.within o e hoe
  rw [addSat_neg_skew q.from_int64] at hts
  have h64 := (L.ts_int64 o e hoe).1
  rcases Nat.eq_or_lt_of_le hle with rfl | hlt'
  · cases some.inj (he.symm.trans hoe)
    simp only [skew] at hts
    omega
  · have hback := hord x hx (o, e) (mem_recordsIn.mpr ⟨hlwm, hhead, hoe⟩) hlt'
    dsimp only at hback
    omega

theorem not_wants_of_lt (h : x.2.ts < q.from_) : q.wants x = false := by
  simp [Query.wants, Int.not_le.mpr h]

theorem doneAt_eq (q : Query) : doneAt q = min (q.to_ + skew) maxInt64 := addSat_skew q.to_int64

theorem from_lt_doneAt (q : Query) : q.from_ < doneAt q := by
  have hlt := q.from_lt
  have hto := q.to_int64.2
  rw [doneAt_eq, skew]
  omega

theorem LogStream.records_eq (L : LogStream) : L.records = recordsIn L.disk .logs 0 L.head := by
  refine (recordsIn_increasing ..).eq_of_mem_iff (recordsIn_increasing ..) fun x ↦ ?_
  rw [mem_recordsIn, mem_recordsIn]
  exact ⟨fun ⟨_, h⟩ ↦ ⟨Nat.zero_le _, h⟩, fun ⟨_, h⟩ ↦ ⟨(L.within _ _ h.2).1, h⟩⟩

/-- The first page starts at the records that may be asked for. -/
theorem before_records (hord : L.InOrder) (hafter : q.after = none) :
    (before q L.records).filter q.wants = (before q (ahead q L)).filter q.wants := by
  have hsplit : L.records = recordsIn L.disk .logs 0 (min (start q L) L.head) ++ ahead q L :=
    L.records_eq.trans (recordsIn_split (Nat.zero_le _))
  have hold : ∀ x ∈ recordsIn L.disk .logs 0 (min (start q L) L.head), x.2.ts < q.from_ := fun x hx ↦
    lt_from_of_lt_start hord hafter (hsplit ▸ mem_append_left _ hx)
      ((mem_recordsIn.mp hx).2.1.trans_le (min_le_left _ _))
  have hbefore : before q L.records =
      recordsIn L.disk .logs 0 (min (start q L) L.head) ++ before q (ahead q L) := by
    rw [hsplit]
    exact takeWhile_of_young fun x hx ↦ (hold x hx).trans (from_lt_doneAt q)
  have hnone : (recordsIn L.disk .logs 0 (min (start q L) L.head)).filter q.wants = [] :=
    filter_eq_nil_iff.mpr fun x hx ↦ Bool.eq_false_iff.mp (not_wants_of_lt (hold x hx))
  rw [hbefore, filter_append, hnone, nil_append]

/-- **What a retrieval gives.** -/
theorem retrieve_eq (hscan : 0 < b.scan) (hord : L.InOrder) (hafter : q.after = none) (now : ℕ → ℤ) :
    ∃ n pages, retrieve c b L n now q = some pages ∧
      pages.flatMap Result.records = ((before q L.records).filter q.wants).map (entryOf c b.bytes) ∧
      (0 :: pages.dropLast.filterMap Result.next).IsChain (· < ·) := by
  obtain ⟨n, pages, hpages, hall, hchain⟩ := retrieve_ahead (c := c) (L := L) hscan _ q now le_rfl
  refine ⟨n, pages, hpages, hall.trans (by rw [before_records hord hafter]), ?_⟩
  cases hnext : pages.dropLast.filterMap Result.next with
  | nil => exact .singleton _
  | cons o os =>
    rw [hnext] at hchain
    obtain ⟨hlt, hrest⟩ := isChain_cons_cons.mp hchain
    exact .cons_cons (by omega) hrest

/-- The retrieval is complete if and only if no record asked for comes after the end of its window. -/
theorem retrievesAll_iff_before (hscan : 0 < b.scan) (hord : L.InOrder) (hafter : q.after = none)
    (now : ℕ → ℤ) : RetrievesAll c q b L now ↔
      (L.records.dropWhile fun x ↦ decide (x.2.ts < doneAt q)).filter q.wants = [] := by
  obtain ⟨n, pages, hpages, hall, hchain⟩ := retrieve_eq (c := c) hscan hord hafter now
  have hsplit : L.records.filter q.wants = (before q L.records).filter q.wants ++
      (L.records.dropWhile fun x ↦ decide (x.2.ts < doneAt q)).filter q.wants := by
    rw [← filter_append]
    exact congrArg _ takeWhile_append_dropWhile.symm
  constructor
  · rintro ⟨n', pages', hpages', hall', -⟩
    rw [retrieve_unique hpages' hpages, hall, hsplit] at hall'
    have hlen := congrArg List.length hall'
    simp only [length_map, length_append] at hlen
    exact eq_nil_of_length_eq_zero (by omega)
  · intro hnil
    rw [hnil, append_nil] at hsplit
    exact ⟨n, pages, hpages, hall.trans (by rw [hsplit]), hchain⟩

theorem not_wants_of_le (h : q.to_ ≤ x.2.ts) : q.wants x = false := by
  simp [Query.wants, Int.not_lt.mpr h]

/-- **What comes after the end of the window.** -/
theorem filter_dropWhile_iff (hord : L.InOrder) :
    (L.records.dropWhile fun x ↦ decide (x.2.ts < doneAt q)).filter q.wants = [] ↔ EndTold q L := by
  obtain ⟨xs, hxs⟩ : ∃ xs, xs = L.records.dropWhile fun x ↦ decide (x.2.ts < doneAt q) := ⟨_, rfl⟩
  have hsplit : L.records = before q L.records ++ xs := by
    rw [hxs]
    exact takeWhile_append_dropWhile.symm
  have hinc : (before q L.records ++ xs).Pairwise (·.1 < ·.1) := by
    rw [← hsplit]
    exact recordsIn_increasing ..
  have hmem : ∀ x ∈ xs, x ∈ L.records := fun x hx ↦ hsplit ▸ mem_append_right _ hx
  have hmax : ∀ x ∈ L.records, x.2.ts ≤ maxInt64 := fun x hx ↦
    (L.ts_int64 x.1 x.2 (mem_recordsIn.mp hx).2.2).2
  have hto := q.to_int64.2
  rw [← hxs, filter_eq_nil_iff]
  constructor
  · intro hnone
    refine .inr fun x hx y hy hlt hts ↦ ?_
    -- the record with the last timestamp ends the window at the latest
    have hxin : x ∈ xs := by
      rcases mem_append.mp (hsplit ▸ hx) with hx | hx
      · have hyoung := of_decide_eq_true (all_eq_true.mp all_takeWhile x hx)
        rw [doneAt_eq] at hyoung
        omega
      · exact hx
    rcases mem_append.mp (hsplit ▸ hy) with hy | hy
    · have := (pairwise_append.mp hinc).2.2 y hy x hxin
      omega
    · exact Bool.eq_false_iff.mpr (hnone y hy)
  · intro hend y hy
    refine Bool.eq_false_iff.mp ?_
    cases xs with
    | nil => cases hy
    | cons z zs =>
      have hz : doneAt q ≤ z.2.ts := by
        have := head?_dropWhile_not (fun x : ℕ × RecEnc ↦ decide (x.2.ts < doneAt q)) L.records
        rw [← hxs] at this
        simpa using this
      rw [doneAt_eq] at hz
      rcases mem_cons.mp hy with rfl | hy'
      · exact not_wants_of_le (by simp only [skew] at hz; omega)
      · have hlt : z.1 < y.1 :=
          (pairwise_cons.mp (pairwise_append.mp hinc).2.1).1 y hy'
        have hback := hord z (hmem z mem_cons_self) y (hmem y hy) hlt
        by_cases hsat : q.to_ + skew ≤ maxInt64
        · exact not_wants_of_le (by omega)
        · refine (hend.resolve_left hsat) z (hmem z mem_cons_self) y (hmem y hy) hlt ?_
          have := hmax z (hmem z mem_cons_self)
          omega

/-- **Log retrieval by pages is complete** exactly when the end of its window can be told. The stream may
have holes anywhere, and no record of it is more than `skew` older than one before it; the bytes of a
page and the limit are any. -/
theorem retrieves_all_iff (c : LogCodec) (L : LogStream) (hord : L.InOrder) (q : Query)
    (hafter : q.after = none) (b : Budget) (hscan : 0 < b.scan) (now : ℕ → ℤ) :
    RetrievesAll c q b L now ↔ EndTold q L :=
  (retrievesAll_iff_before hscan hord hafter now).trans (filter_dropWhile_iff hord)

/-! ### A small log -/

instance : Decidable L.InOrder := inferInstanceAs (Decidable (∀ x ∈ L.records, ∀ y ∈ L.records, _))

/-- A disk with log records of these timestamps, and a hole before each of them. -/
def logDisk (ts : List ℤ) : Disk
  | .stream .logs o =>
    if o = 0 ∨ o % 2 = 1 then none
    else (ts[o / 2 - 1]?).map fun t ↦
      .record ⟨false, ["colca", "v1", "_Log", "edge", "api", "INFO"], [49], t, {}, 0, "", ""⟩
  | _ => none

theorem recordAt_logDisk {ts : List ℤ} {e : RecEnc} (h : recordAt (logDisk ts) .logs o = some e) :
    (1 ≤ o ∧ o < 2 * ts.length + 1) ∧ e.ts ∈ ts := by
  rw [recordAt_eq_some] at h
  simp only [logDisk] at h
  split at h
  · cases h
  · rename_i ho
    obtain ⟨t, ht, heq⟩ := map_eq_some_iff.mp h
    obtain ⟨hlt, -⟩ := List.getElem?_eq_some_iff.mp ht
    cases heq
    exact ⟨by omega, mem_of_getElem? ht⟩

def logOf (ts : List ℤ) (h : ∀ t ∈ ts, IsInt64 t) : LogStream where
  disk := logDisk ts
  lwm := 1
  head := 2 * ts.length + 1
  lwm_pos := Nat.one_pos
  within _ _ he := (recordAt_logDisk he).1
  ts_int64 _ _ he := h _ (recordAt_logDisk he).2

instance (z : ℤ) : Decidable (IsInt64 z) := inferInstanceAs (Decidable (_ ∧ _))

/-- The query of a window, two records a page. -/
def window (a z : ℤ) (h : a < z ∧ IsInt64 a ∧ IsInt64 z) : Query where
  from_ := a
  to_ := z
  limit := 2
  minLevel := levelRank "INFO"
  service := ""
  from_lt := h.1
  from_int64 := h.2.1
  to_int64 := h.2.2
  limit_pos := by decide

def sampleCodec : LogCodec := ⟨fun _ ↦ true, fun _ ↦ 100⟩

/-- Three records of a window, of which the last is older than the first. -/
theorem retrieves_all_iff_late_record : ∃ L : LogStream, L.records.length = 5 ∧
    RetrievesAll sampleCodec (window 10 20 (by decide)) (fetchLogsBudgetFor 0) L (fun _ ↦ 0) :=
  ⟨logOf [5, 15, 12, 30, 11] (by decide), by decide +kernel,
    (retrieves_all_iff _ _ (by decide +kernel) _ rfl _ (by decide) _).mpr (.inl (by decide))⟩

/-- The first record has the last timestamp there is, and the second is a millisecond older. -/
theorem last_timestamp_ends_window : ¬ ∀ (c : LogCodec) (L : LogStream) (q : Query) (m : ℕ)
    (now : ℕ → ℤ), L.InOrder → q.after = none → RetrievesAll c q (fetchLogsBudgetFor m) L now := by
  intro hall
  have hord : (logOf [maxInt64, maxInt64 - 1] (by decide)).InOrder := by decide +kernel
  have h := hall sampleCodec _ (window 0 maxInt64 (by decide)) 0 (fun _ ↦ 0) hord rfl
  rw [retrievesAll_iff_before (by decide) hord rfl] at h
  exact absurd h (by decide +kernel)

end Colca.FetchLogs
