import PaymentApis.Conducts
import PaymentApis.Ledger

/-!
# Idempotency keys

A keyed `POST /transfers` inserts the row of its key, runs the handler, and
saves the response in the row or deletes it after a server error. A request
that finds the key taken reads the row in a second statement; when the row has
been deleted in between, the middleware takes the request for the first one and
runs the handler without holding the key.

In runs without such a read, at most one request at a time holds a key, which
bounds the committed transfers (`transfers_once`) and makes every replayed
response one that was produced for the same fingerprint (`replays_faithful`).
-/

namespace PaymentApis

open TxStore

/-- The request carries the key `key` of merchant `m`. -/
def Job.carries (m : Uuid) (key : Text) : Job → Bool
  | .postTransfer m' (some key') _ _ => decide (m' = m ∧ key' = key)
  | _ => false

def Item.isTransfer : Item → Bool
  | .txn (.transfer _ _) _ => true
  | _ => false

/-- The committed transfers of the requests that carry a key. -/
def transfersFor (js : List Job) (m : Uuid) (key : Text) (history : List (ℕ × Item)) :
    List (ℕ × Item) :=
  history.filter (fun x => Item.isTransfer x.2 && (js[x.1]?).any (Job.carries m key))

/-- If the step is the read that follows a unique violation, the row is still there. -/
def Sys.keyStillThere (s : Sys) : Step → Bool
  | .run i _ =>
    match (s.nodes[i]?).bind Node.query? with
    | some (.idempotencyGet m key) => (Db.idempotency s.db m key).isSome
    | _ => true
  | _ => true

/-! ## The key row after a commit -/

/-- What a commit leaves of the row of a key. -/
def Item.leaves (m : Uuid) (key : Text) (it : Item) (old : Option IdempotencyRow) :
    Option IdempotencyRow :=
  match it with
  | .auto (.idempotencyInsert m' key' hash) _ =>
    if m' = m ∧ key' = key then some ⟨hash, .inProgress, none, none⟩ else old
  | .auto (.idempotencyComplete m' key' status body) _ =>
    if m' = m ∧ key' = key then
      old.map (fun row => { row with
        status := .completed
        responseStatus := some status
        responseBody := body })
    else old
  | .auto (.idempotencyRelease m' key') _ => if m' = m ∧ key' = key then none else old
  | _ => old

theorem idempotency_install_other {ws : List Row} (hws : ∀ r ∈ ws, r.asIdempotency = none) (d : Db)
    (m : Uuid) (key : Text) : Db.idempotency (d.install ws) m key = d.idempotency m key := by
  have hnot : Loc.idempotency m key ∉ ws.map Row.key := by
    intro hmem
    obtain ⟨r, hr, hkey⟩ := List.mem_map.mp hmem
    have hnone := hws r hr
    cases r <;> simp [Row.asIdempotency] at hkey hnone
  rw [Db.idempotency, Table.get_install_of_notMem hnot, Db.idempotency]

theorem idempotency_install_slot (d : Db) (slot : IdempotencySlot) (m : Uuid) (key : Text) :
    Db.idempotency (d.install [.idempotency slot]) m key =
      if slot.merchantId = m ∧ slot.key = key then slot.row else d.idempotency m key := by
  rw [Table.install_cons, Table.install_nil, Db.idempotency, Table.get_put]
  by_cases h : slot.merchantId = m ∧ slot.key = key
  · obtain ⟨rfl, rfl⟩ := h
    simp [Row.asIdempotency]
  · have hne : ¬ (Row.idempotency slot).key = .idempotency m key := by simpa using h
    rw [if_neg hne, if_neg h]
    rfl

theorem Commit.idempotency {min : ℤ} {log : List Ev} {now : ℕ} {d : Db} {it : Item}
    {ws : List Row} (h : Commit min log now d it ws) (m : Uuid) (key : Text) :
    Db.idempotency (d.install ws) m key = Item.leaves m key it (d.idempotency m key) := by
  have hother : (∀ r ∈ ws, r.asIdempotency = none) →
      Db.idempotency (d.install ws) m key = d.idempotency m key :=
    fun hws => idempotency_install_other hws d m key
  cases h with
  | query s r hs => cases s <;> first | rfl | simp [Stmt.isQuery] at hs
  | keyed s r ws hkey =>
    cases hkey with
    | insert m' key' hash free => exact idempotency_install_slot d _ m key
    | get => rfl
    | complete m' key' status body row found =>
      rw [idempotency_install_slot]
      simp only [Item.leaves]
      split
      · rename_i hsame
        obtain ⟨rfl, rfl⟩ := hsame
        rw [found]
        rfl
      · rfl
    | completeNone m' key' status body gone =>
      simp only [Item.leaves]
      split
      · rename_i hsame
        obtain ⟨rfl, rfl⟩ := hsame
        show d.idempotency m' key' = _
        rw [gone]
        rfl
      · rfl
    | release m' key' row found => exact idempotency_install_slot d _ m key
    | releaseNone m' key' gone =>
      simp only [Item.leaves]
      split
      · rename_i hsame
        obtain ⟨rfl, rfl⟩ := hsame
        exact gone
      · rfl
  | accountFind | bank | sweepSkip => rfl
  | claimDue limit m rows idle nodup claimed => exact hother (by simp [Row.asIdempotency])
  | _ => exact hother (by simp [Row.asIdempotency, TransferCommit.writes, ConfirmCommit.writes,
      CancelCommit.writes, SweepCommit.writes, PaidCommit.writes, ReversalCommit.writes,
      Outbox.writes, or_imp, forall_and])

/-- A key is inserted only while it has no row. -/
theorem Commit.insert_free {min : ℤ} {log : List Ev} {now : ℕ} {d : Db} {ws : List Row} {m : Uuid}
    {key hash : Text} {r : Unit}
    (h : Commit min log now d (.auto (.idempotencyInsert m key hash) r) ws) :
    d.idempotency m key = none := by
  cases h with
  | query s r hs => simp [Stmt.isQuery] at hs
  | keyed s r ws hkey =>
    cases hkey with
    | insert m key hash free => exact free

/-- The row a request finds is that of its key. -/
theorem Commit.get_found {min : ℤ} {log : List Ev} {now : ℕ} {d : Db} {ws : List Row} {m : Uuid}
    {key : Text} {r : Option IdempotencyRow}
    (h : Commit min log now d (.auto (.idempotencyGet m key) r) ws) : r = d.idempotency m key := by
  cases h with
  | query s r hs => simp [Stmt.isQuery] at hs
  | keyed s r ws hkey =>
    cases hkey with
    | get => rfl

/-! ## One commit of a request -/

/-- A commit of a keyed request, with the stage it leads to. -/
inductive KeyAct (m : Uuid) (key hash : Text) (dto : CreateTransferDto) (log : List Ev) :
    Item → KeyStage → Prop
  | insert (place : keyStage log = .start) :
      KeyAct m key hash dto log (.auto (.idempotencyInsert m key hash) ()) (.running true false)
  | found (row : IdempotencyRow) (place : keyStage log = .start) :
      KeyAct m key hash dto log (.auto (.idempotencyGet m key) (some row)) (.answered row)
  | missed (place : keyStage log = .start) :
      KeyAct m key hash dto log (.auto (.idempotencyGet m key) none) (.running false false)
  | transfer (c : Bool) (evs : List Ev) (place : keyStage log = .running c false) :
      KeyAct m key hash dto log (.txn (.transfer m dto) evs) (.running c true)
  | complete (c x : Bool) (status : ℕ) (body : Option ResponseBody)
      (place : keyStage log = .running c x) (handled : Handled m dto x ⟨status, body⟩) :
      KeyAct m key hash dto log (.auto (.idempotencyComplete m key status body) ())
        (.completed c x ⟨status, body⟩)
  | release (c : Bool) (place : keyStage log = .running c false) :
      KeyAct m key hash dto log (.auto (.idempotencyRelease m key) ()) (.released c)

theorem KeyedMay.act {m : Uuid} {key hash : Text} {dto : CreateTransferDto} {log : List Ev}
    {it : Item} (h : KeyedMay m key hash dto log it) :
    KeyAct m key hash dto log it (keyStage (log ++ it.events)) := by
  rw [keyStage_append]
  unfold KeyedMay at h
  split at h
  · obtain ⟨rfl, rfl, rfl, hplace⟩ := h
    rw [hplace]
    exact .insert hplace
  · rename_i r
    obtain ⟨rfl, rfl, hplace⟩ := h
    rw [hplace]
    cases r with
    | none => exact .missed hplace
    | some row => exact .found row hplace
  · obtain ⟨rfl, rfl, ⟨c, hplace⟩, r, hyields⟩ := h
    rw [hplace, Item.events, transferService.attempt_observe hyields]
    exact .transfer c _ hplace
  · obtain ⟨rfl, rfl, c, x, hplace, hhandled⟩ := h
    rw [hplace]
    exact .complete c x _ _ hplace hhandled
  · obtain ⟨rfl, rfl, c, hplace⟩ := h
    rw [hplace]
    exact .release c hplace
  · exact h.elim

/-- A key is only touched by the requests that carry it. -/
theorem Job.May.leaves {j : Job} {log : List Ev} {it : Item} (h : j.May log it) {m : Uuid}
    {key : Text} (hj : j.carries m key = false) (old : Option IdempotencyRow) :
    Item.leaves m key it old = old := by
  have hworker : ∀ scope, WorkerMay scope it → Item.leaves m key it old = old := by
    intro scope hw
    cases it with
    | auto s r => cases s <;> first | rfl | exact hw.elim
    | txn t evs => rfl
    | call x a => rfl
  cases j with
  | createWallet | registerEndpoint | registerAccount | confirm | cancel =>
    obtain ⟨r, rfl⟩ := h
    rfl
  | transfer =>
    obtain ⟨-, evs, rfl⟩ := h
    rfl
  | createIntent => obtain ⟨r, rfl⟩ | ⟨r, rfl⟩ := h <;> rfl
  | sweep | processDue | runNow | tick => exact hworker _ h
  | postTransfer m' key' hash dto =>
    obtain ⟨k, rfl, hkeyed⟩ := h
    have hne : ¬ (m' = m ∧ k = key) := by simpa [Job.carries] using hj
    have hact := hkeyed.act
    generalize keyStage (log ++ it.events) = after at hact
    cases hact with
    | insert | complete | release => exact if_neg hne
    | found | missed | transfer => rfl

/-! ## Who holds a key -/

/-- A request that holds its key, once. -/
def KeyStage.holds : KeyStage → ℕ
  | .running true _ => 1
  | .completed true _ _ => 1
  | _ => 0

/-- A request whose transfer has been committed, once. -/
def KeyStage.sent : KeyStage → ℕ
  | .running _ true => 1
  | .completed _ true _ => 1
  | _ => 0

/-- A request that runs its handler has inserted the key row. -/
def KeyStage.Claimed : KeyStage → Prop
  | .running c _ => c = true
  | .completed c _ _ => c = true
  | .released c => c = true
  | _ => True

def holding (m : Uuid) (key : Text) (j : Job) (log : List Ev) : ℕ :=
  if j.carries m key then (keyStage log).holds else 0

def sending (m : Uuid) (key : Text) (j : Job) (log : List Ev) : ℕ :=
  if j.carries m key then (keyStage log).sent else 0

/-- No request has read its key row in vain. -/
def NoMiss (a : Abs) : Prop :=
  ∀ i m key, (i, Item.auto (.idempotencyGet m key) none) ∉ a.history

theorem Job.carries_iff {m : Uuid} {key : Text} {j : Job} :
    j.carries m key = true ↔ ∃ hash dto, j = .postTransfer m (some key) hash dto := by
  constructor
  · intro h
    cases j with
    | postTransfer m' key' hash dto =>
      cases key' with
      | none => simp [Job.carries] at h
      | some key' =>
        obtain ⟨rfl, rfl⟩ : m' = m ∧ key' = key := by simpa [Job.carries] using h
        exact ⟨hash, dto, rfl⟩
    | _ => simp [Job.carries] at h
  · rintro ⟨hash, dto, rfl⟩
    simp [Job.carries]

section Held

variable {min : ℤ} {m : Uuid} {key : Text} {js : List Job} {a : Abs}

theorem JReach.claimed (h : JReach min (fun _ a => NoMiss a) js a) {i : ℕ} {j : Job}
    {p : Bool × List Ev} (hj : js[i]? = some j) (hp : a.procs[i]? = some p)
    (hcarries : j.carries m key = true) : (keyStage p.2).Claimed := by
  refine TxStore.JReach.each (F := fun j log => j.carries m key = true → (keyStage log).Claimed)
    ?_ ?_ ?_ h i j p hj hp hcarries
  · exact fun _ _ => trivial
  · intro j log f hF hc
    rw [keyStage_fault]
    exact hF hc
  · intro js a i j log it p now d hP hmem _ hmay hF hc
    have hbefore := hF hc
    obtain ⟨hash, dto, rfl⟩ := Job.carries_iff.mp hc
    obtain ⟨k, hk, hkeyed⟩ := hmay
    cases hk
    have hact := hkeyed.act
    generalize keyStage (log ++ it.events) = after at hact
    cases hact with
    | insert place => exact rfl
    | found row place => trivial
    | missed place => exact absurd hmem (hP i m key)
    | transfer c evs place => simpa [place, KeyStage.Claimed] using hbefore
    | complete c x status body place handled => simpa [place, KeyStage.Claimed] using hbefore
    | release c place => simpa [place, KeyStage.Claimed] using hbefore

/-- The requests that hold a key are as many as it has rows: one or none. -/
theorem JReach.holders (h : JReach min (fun _ a => NoMiss a) js a) :
    tally (holding m key) js a.procs =
      if (Db.idempotency a.db m key).isSome then 1 else 0 := by
  induction h with
  | init => rfl
  | @step js a js' a' hr hs hP ih =>
    cases hs with
    | start j live =>
      rw [tally_append hr.sized.1, ih]
      simp [holding, KeyStage.holds]
    | tick n => exact ih
    | fault i log f live hi =>
      rw [tally_set_same hr.sized.1 hi (fun j => by rw [holding, keyStage_fault, holding]), ih]
    | quiet i was log live hi _ => rw [tally_set_same hr.sized.1 hi (fun _ => rfl), ih]
    | commit i j log it p live hj hi _ hg hmay =>
      have hset : tally (holding m key) js (a.procs.set i (live, log ++ it.events)) +
          holding m key j log = tally (holding m key) js a.procs +
            holding m key j (log ++ it.events) := tally_set hj hi
      have hrow : Db.idempotency (a.db.install p.writes) m key =
          Item.leaves m key it (Db.idempotency a.db m key) := Commit.idempotency hg m key
      show tally (holding m key) js (a.procs.set i (live, log ++ it.events)) = if
        (Db.idempotency (a.db.install p.writes) m key).isSome then 1 else 0
      cases hc : j.carries m key with
      | false =>
        rw [hrow, hmay.leaves hc, ← ih]
        simpa [holding, hc] using hset
      | true =>
        have hclaimed := JReach.claimed hr hj hi hc
        obtain ⟨hash, dto, rfl⟩ := Job.carries_iff.mp hc
        obtain ⟨k, hk, hkeyed⟩ := hmay
        cases hk
        have hact := hkeyed.act
        simp only [holding, hc, if_true] at hset
        generalize keyStage (log ++ it.events) = after at hact hset
        cases hact with
        | insert place =>
          -- the key had no row, so nobody held it
          have hnone := Commit.insert_free hg
          rw [hnone] at ih
          rw [hrow]
          simp [place, KeyStage.holds, ih, Item.leaves] at hset ⊢
          exact hset
        | found row place =>
          rw [hrow, show Item.leaves m key _ _ = Db.idempotency a.db m key from rfl, ← ih]
          simpa [place, KeyStage.holds] using hset
        | missed place =>
          exact absurd (by simp) (hP i m key)
        | transfer c evs place =>
          rw [hrow, show Item.leaves m key _ _ = Db.idempotency a.db m key from rfl, ← ih]
          cases c <;> simpa [place, KeyStage.holds] using hset
        | complete c x status body place handled =>
          rw [hrow]
          have hpresent : (Item.leaves m key (.auto (.idempotencyComplete m key status body) ())
              (Db.idempotency a.db m key)).isSome = (Db.idempotency a.db m key).isSome := by
            simp [Item.leaves]
          rw [hpresent, ← ih]
          cases c <;> simpa [place, KeyStage.holds] using hset
        | release c place =>
          rw [place] at hclaimed
          obtain rfl : c = true := hclaimed
          -- the row was that of this request
          have hone : 1 ≤ tally (holding m key) js a.procs := by
            refine le_trans ?_ (le_tally hj hi)
            simp [holding, hc, place, KeyStage.holds]
          rw [hrow]
          simp only [place, KeyStage.holds, Item.leaves] at hset ⊢
          split at ih
          · simp
            omega
          · omega

theorem transfersFor_start {j : Job} {history : List (ℕ × Item)}
    (h : ∀ x ∈ history, x.1 < js.length) :
    transfersFor (js ++ [j]) m key history = transfersFor js m key history := by
  refine List.filter_congr ?_
  intro x hx
  rw [List.getElem?_append_left (h x hx)]

/-- The committed transfers for a key are those of the requests that carry it. -/
theorem JReach.sends {P : List Job → Abs → Prop} (h : JReach min P js a) :
    (transfersFor js m key a.history).length = tally (sending m key) js a.procs := by
  induction h with
  | init => rfl
  | @step js a js' a' hr hs _ ih =>
    cases hs with
    | start j live =>
      rw [tally_append hr.sized.1, ← ih, transfersFor_start hr.sized.2]
      simp [sending, KeyStage.sent]
    | tick n => exact ih
    | fault i log f live hi =>
      rw [tally_set_same hr.sized.1 hi (fun j => by rw [sending, keyStage_fault, sending]), ih]
    | quiet i was log live hi _ => rw [tally_set_same hr.sized.1 hi (fun _ => rfl), ih]
    | commit i j log it p live hj hi _ hg hmay =>
      have hset : tally (sending m key) js (a.procs.set i (live, log ++ it.events)) +
          sending m key j log = tally (sending m key) js a.procs +
            sending m key j (log ++ it.events) := tally_set hj hi
      have hnew : (transfersFor js m key (a.history ++ [(i, it)])).length =
          (transfersFor js m key a.history).length +
            if (Item.isTransfer it && j.carries m key) = true then 1 else 0 := by
        rw [transfersFor, List.filter_append, List.length_append]
        split
        · rename_i hcount
          simp [transfersFor, hj, hcount]
        · rename_i hcount
          simp [transfersFor, hj, hcount]
      rw [hnew, ih]
      cases hc : j.carries m key with
      | false => simpa [sending, hc] using hset.symm
      | true =>
        obtain ⟨hash, dto, rfl⟩ := Job.carries_iff.mp hc
        obtain ⟨k, hk, hkeyed⟩ := hmay
        cases hk
        have hact := hkeyed.act
        simp only [sending, hc, if_true] at hset
        generalize keyStage (log ++ it.events) = after at hact hset
        cases hact with
        | insert place | found row place | missed place | release c place =>
          simpa [place, KeyStage.sent, Item.isTransfer] using hset.symm
        | transfer c evs place =>
          simpa [place, KeyStage.sent, Item.isTransfer] using hset.symm
        | complete c x status body place handled =>
          cases x <;> simpa [place, KeyStage.sent, Item.isTransfer] using hset.symm

/-- A request that has saved a response is at its end. -/
theorem JStep.completed {js' : List Job} {a' : Abs}
    (hs : TxStore.JStep (commits min) Job.May js a js' a') (hlen : js.length = a.procs.length)
    {i : ℕ} {j : Job} {q : Bool × List Ev} (hj : js[i]? = some j) (hq : a.procs[i]? = some q)
    (hc : j.carries m key = true) {c x : Bool} {res : Response}
    (hstage : keyStage q.2 = .completed c x res) :
    js'[i]? = some j ∧ ∃ q', a'.procs[i]? = some q' ∧ keyStage q'.2 = .completed c x res := by
  obtain ⟨hj', q', hq'⟩ := hs.stays hlen hj hq
  refine ⟨hj', q', hq', ?_⟩
  refine TxStore.JStep.each (F := fun k _ log _ => k = i → keyStage log = .completed c x res) hs
    hlen ?_ ?_ ?_ (fun _ _ _ _ _ _ _ _ _ hF => hF) ?_ i j q' hj' hq' rfl
  · rintro - rfl
    exact absurd hj (by simp)
  · intro k _ log f hF hk
    rw [keyStage_fault, hF hk]
  · rintro k j₁ log it p hj₁ - - hmay - - hF rfl
    rw [hj] at hj₁
    cases hj₁
    have hplace := hF rfl
    obtain ⟨hash, dto, rfl⟩ := Job.carries_iff.mp hc
    obtain ⟨_, hkey, hkeyed⟩ := hmay
    cases hkey
    have hact := hkeyed.act
    generalize keyStage (log ++ it.events) = after at hact
    cases hact <;> simp_all
  · rintro k _ q₁ - hq₁ rfl
    rw [hq] at hq₁
    cases hq₁
    exact hstage

end Held

/-! ## Whose row it is -/

/-- The commit claims the key. -/
def Item.claims (m : Uuid) (key : Text) : Item → Bool
  | .auto (.idempotencyInsert m' key' _) _ => decide (m' = m ∧ key' = key)
  | _ => false

/-- The commit saves a response under the key, or frees it. -/
def Item.settlesKey (m : Uuid) (key : Text) : Item → Bool
  | .auto (.idempotencyComplete m' key' _ _) _ => decide (m' = m ∧ key' = key)
  | .auto (.idempotencyRelease m' key') _ => decide (m' = m ∧ key' = key)
  | _ => false

/-- The request that has claimed the key last. -/
def claimant (m : Uuid) (key : Text) (history : List (ℕ × Item)) : Option ℕ :=
  ((history.filter (fun x => Item.claims m key x.2)).getLast?).map Prod.fst

theorem claimant_append (m : Uuid) (key : Text) (history : List (ℕ × Item)) (i : ℕ) (it : Item) :
    claimant m key (history ++ [(i, it)]) =
      if Item.claims m key it then some i else claimant m key history := by
  rw [claimant, List.filter_append]
  split
  · rename_i h
    simp [h]
  · rename_i h
    simp [h, claimant]

theorem Job.May.not_claims {j : Job} {log : List Ev} {it : Item} (h : j.May log it) {m : Uuid}
    {key : Text} (hj : j.carries m key = false) :
    Item.claims m key it = false ∧ Item.settlesKey m key it = false := by
  have hworker : ∀ scope, WorkerMay scope it →
      Item.claims m key it = false ∧ Item.settlesKey m key it = false := by
    intro scope hw
    cases it with
    | auto s r => cases s <;> first | exact ⟨rfl, rfl⟩ | exact hw.elim
    | txn t evs => exact ⟨rfl, rfl⟩
    | call x a => exact ⟨rfl, rfl⟩
  cases j with
  | createWallet | registerEndpoint | registerAccount | confirm | cancel =>
    obtain ⟨r, rfl⟩ := h
    exact ⟨rfl, rfl⟩
  | transfer =>
    obtain ⟨-, evs, rfl⟩ := h
    exact ⟨rfl, rfl⟩
  | createIntent => obtain ⟨r, rfl⟩ | ⟨r, rfl⟩ := h <;> exact ⟨rfl, rfl⟩
  | sweep | processDue | runNow | tick => exact hworker _ h
  | postTransfer m' key' hash dto =>
    obtain ⟨k, rfl, hkeyed⟩ := h
    have hne : ¬ (m' = m ∧ k = key) := by simpa [Job.carries] using hj
    have hact := hkeyed.act
    generalize keyStage (log ++ it.events) = after at hact
    cases hact with
    | insert | complete | release => simp [Item.claims, Item.settlesKey, hne]
    | found | missed | transfer => exact ⟨rfl, rfl⟩

/-- A request that does not hold the key leaves its row alone. -/
theorem Job.May.foreign {j : Job} {log : List Ev} {it : Item} (h : j.May log it) {m : Uuid}
    {key : Text} (hc : j.carries m key = true) (hclaimed : (keyStage log).Claimed)
    (hinsert : ∀ hash, it ≠ .auto (.idempotencyInsert m key hash) ())
    (hholds : (keyStage log).holds ≠ 1) (row : IdempotencyRow) :
    Item.leaves m key it (some row) = some row ∧ Item.claims m key it = false := by
  obtain ⟨hash, dto, rfl⟩ := Job.carries_iff.mp hc
  obtain ⟨_, hkey, hkeyed⟩ := h
  cases hkey
  have hact := hkeyed.act
  generalize keyStage (log ++ it.events) = after at hact
  cases hact with
  | insert place => exact absurd rfl (hinsert hash)
  | found | missed | transfer => exact ⟨rfl, rfl⟩
  | complete c x status body place handled =>
    rw [place] at hclaimed hholds
    obtain rfl : c = true := hclaimed
    exact absurd rfl hholds
  | release c place =>
    rw [place] at hclaimed hholds
    obtain rfl : c = true := hclaimed
    exact absurd rfl hholds

/-- What the row of a key says about the request that holds it. -/
def KeyStage.Matches (m : Uuid) (dto : CreateTransferDto) : KeyStage → IdempotencyRow → Prop
  | .running _ _, row => row.status = .inProgress
  | .completed _ x res, row => row.status = .completed ∧ Handled m dto x res ∧
    res = ⟨row.responseStatus.getD 200, row.responseBody⟩
  | _, _ => False

section Rows

variable {min : ℤ} {m : Uuid} {key : Text} {js : List Job} {a : Abs}

/-- At most one request holds a key. -/
theorem JReach.holder_unique (m : Uuid) (key : Text)
    (h : JReach min (fun _ a => NoMiss a) js a) {i i' : ℕ} {j j' : Job}
    {q q' : Bool × List Ev} (hj : js[i]? = some j) (hq : a.procs[i]? = some q)
    (hi : holding m key j q.2 = 1) (hj' : js[i']? = some j') (hq' : a.procs[i']? = some q')
    (hi' : holding m key j' q'.2 = 1) : i = i' := by
  refine eq_of_tally_le_one (f := holding m key) ?_ hj hq hi.ge hj' hq' hi'.ge
  rw [JReach.holders h]
  split <;> omega

/-- The request that holds a key has claimed its row, and the row says how far
the request has come. -/
theorem JReach.held_row (h : JReach min (fun _ a => NoMiss a) js a) :
    ∀ {i : ℕ} {hash : Text} {dto : CreateTransferDto} {q : Bool × List Ev},
      js[i]? = some (.postTransfer m (some key) hash dto) → a.procs[i]? = some q →
      (keyStage q.2).holds = 1 → ∃ row, Db.idempotency a.db m key = some row ∧
        row.requestHash = hash ∧ claimant m key a.history = some i ∧
        (keyStage q.2).Matches m dto row := by
  induction h with
  | init =>
    intro i hash dto q hj
    simp at hj
  | @step js a js' a' hr hs hP ih =>
    intro i hash dto q hj hq hholds
    cases hs with
    | start j live =>
      rw [List.getElem?_append] at hj hq
      rw [hr.sized.1] at hj
      split at hq
      · rename_i hlt
        rw [if_pos hlt] at hj
        exact ih hj hq hholds
      · rw [List.getElem?_singleton] at hq
        split at hq
        · cases hq
          simp [KeyStage.holds] at hholds
        · simp at hq
    | tick n => exact ih hj hq hholds
    | fault k log f live hk =>
      rw [List.getElem?_set] at hq
      split at hq
      · rename_i hik
        subst hik
        split at hq
        · cases hq
          simp only [keyStage_fault] at hholds ⊢
          exact ih hj hk hholds
        · simp at hq
      · exact ih hj hq hholds
    | quiet k was log live hk _ =>
      rw [List.getElem?_set] at hq
      split at hq
      · rename_i hik
        subst hik
        split at hq
        · cases hq
          exact ih (q := (was, log)) hj hk hholds
        · simp at hq
      · exact ih hj hq hholds
    | commit k j log it p live hj' hk _ hg hmay =>
      have hrow : Db.idempotency (a.db.install p.writes) m key =
          Item.leaves m key it (Db.idempotency a.db m key) := Commit.idempotency hg m key
      simp only [hrow, claimant_append]
      rw [List.getElem?_set] at hq
      split at hq
      · -- the request's own commit
        rename_i hik
        subst hik
        split at hq
        · cases hq
          rw [hj] at hj'
          cases hj'
          obtain ⟨_, hkey, hkeyed⟩ := hmay
          cases hkey
          have hact := hkeyed.act
          simp only at hholds ⊢
          generalize keyStage (log ++ it.events) = after at hact hholds
          cases hact with
          | insert place =>
            exact ⟨⟨hash, .inProgress, none, none⟩, by simp [Item.leaves], rfl,
              by simp [Item.claims], rfl⟩
          | found row place => simp [KeyStage.holds] at hholds
          | missed place => simp [KeyStage.holds] at hholds
          | release c place => simp [KeyStage.holds] at hholds
          | transfer c evs place =>
            cases c with
            | false => simp [KeyStage.holds] at hholds
            | true =>
              obtain ⟨row, hold, hhash, hclaimant, hmatch⟩ := ih hj hk (by rw [place]; rfl)
              rw [place] at hmatch
              exact ⟨row, hold, hhash, hclaimant, hmatch⟩
          | complete c x status body place handled =>
            cases c with
            | false => simp [KeyStage.holds] at hholds
            | true =>
              obtain ⟨row, hold, hhash, hclaimant, hmatch⟩ := ih hj hk (by rw [place]; rfl)
              exact ⟨{ row with status := .completed, responseStatus := some status
                                responseBody := body },
                by simp [Item.leaves, hold], hhash, hclaimant, rfl, handled, rfl⟩
        · simp at hq
      · -- another request's commit leaves the row alone
        rename_i hik
        obtain ⟨row, hold, hhash, hclaimant, hmatch⟩ := ih hj hq hholds
        have hkeep : Item.leaves m key it (some row) = some row ∧
            Item.claims m key it = false := by
          cases hc : j.carries m key with
          | false => exact ⟨hmay.leaves hc _, (hmay.not_claims hc).1⟩
          | true =>
            refine hmay.foreign hc (JReach.claimed hr hj' hk hc) ?_ ?_ row
            · rintro hash' rfl
              simpa [hold] using Commit.insert_free hg
            · intro hone
              refine hik (JReach.holder_unique m key hr hj' hk ?_ hj hq ?_)
              · simpa [holding, hc] using hone
              · simpa [holding, Job.carries] using hholds
        refine ⟨row, by rw [hold, hkeep.1], hhash, ?_, hmatch⟩
        rw [hkeep.2, ← hclaimant]
        rfl

/-- The row of a key is that of the request that holds it. -/
theorem JReach.holder (h : JReach min (fun _ a => NoMiss a) js a) {row : IdempotencyRow}
    (hrow : Db.idempotency a.db m key = some row) :
    ∃ (i : ℕ) (dto : CreateTransferDto) (q : Bool × List Ev),
      js[i]? = some (Job.postTransfer m (some key) row.requestHash dto) ∧
      a.procs[i]? = some q ∧ (keyStage q.2).Matches m dto row := by
  have hone : 0 < tally (holding m key) js a.procs := by
    rw [JReach.holders h, hrow]
    exact one_pos
  obtain ⟨i, j, q, hj, hq, hholds⟩ := exists_of_tally_pos hone
  rw [holding] at hholds
  split at hholds
  · rename_i hc
    obtain ⟨hash, dto, rfl⟩ := Job.carries_iff.mp hc
    have hholds : (keyStage q.2).holds = 1 := by
      generalize keyStage q.2 = st at hholds
      revert hholds
      unfold KeyStage.holds
      split <;> simp
    obtain ⟨row', hrow', rfl, -, hmatch⟩ := JReach.held_row h hj hq hholds
    rw [hrow] at hrow'
    cases hrow'
    exact ⟨i, dto, q, hj, hq, hmatch⟩
  · simp at hholds

/-- A response is saved, and a key freed, only by the request that has claimed
the key last. -/
theorem JReach.settled_by_claimant (h : JReach min (fun _ a => NoMiss a) js a) :
    ∀ {h₁ h₂ : List (ℕ × Item)} {i : ℕ} {it : Item}, a.history = h₁ ++ (i, it) :: h₂ →
      Item.settlesKey m key it = true → claimant m key h₁ = some i := by
  induction h with
  | init =>
    intro h₁ h₂ i it heq
    simp [TxStore.Abs.init] at heq
  | @step js a js' a' hr hs hP ih =>
    intro h₁ h₂ i it heq hsettles
    cases hs with
    | start j live => exact ih heq hsettles
    | tick n => exact ih heq hsettles
    | fault k log f live hk => exact ih heq hsettles
    | quiet k was log live hk _ => exact ih heq hsettles
    | commit k j log it' p live hj hk _ hg hmay =>
      obtain rfl | ⟨h₂, x, rfl⟩ := h₂.eq_nil_or_concat'
      · -- the new commit
        obtain ⟨rfl, hlast⟩ := List.append_inj' heq rfl
        simp only [List.cons.injEq, Prod.mk.injEq, and_true] at hlast
        obtain ⟨rfl, rfl⟩ := hlast
        cases hc : j.carries m key with
        | false =>
          rw [(hmay.not_claims hc).2] at hsettles
          simp at hsettles
        | true =>
          have hclaimed := JReach.claimed hr hj hk hc
          obtain ⟨hash, dto, rfl⟩ := Job.carries_iff.mp hc
          have hholds : (keyStage log).holds = 1 := by
            obtain ⟨_, hkey, hkeyed⟩ := hmay
            cases hkey
            have hact := hkeyed.act
            generalize keyStage (log ++ it'.events) = after at hact
            cases hact with
            | insert | found | missed | transfer => simp [Item.settlesKey] at hsettles
            | complete c x status body place handled =>
              rw [place] at hclaimed ⊢
              obtain rfl : c = true := hclaimed
              rfl
            | release c place =>
              rw [place] at hclaimed ⊢
              obtain rfl : c = true := hclaimed
              rfl
          obtain ⟨-, -, -, hclaimant, -⟩ := JReach.held_row hr hj hk hholds
          exact hclaimant
      · rw [← List.cons_append, ← List.append_assoc] at heq
        exact ih (List.append_inj' heq rfl).1 hsettles

/-- A request with the fingerprint `hash` has saved the response of its handler. -/
def Saved (js : List Job) (a : Abs) (m : Uuid) (key hash : Text) (res : Response) : Prop :=
  ∃ (i : ℕ) (dto : CreateTransferDto) (q : Bool × List Ev) (c x : Bool),
    js[i]? = some (.postTransfer m (some key) hash dto) ∧ a.procs[i]? = some q ∧
      keyStage q.2 = .completed c x res ∧ Handled m dto x res

theorem JStep.saved {js' : List Job} {a' : Abs} {hash : Text} {res : Response}
    (hs : TxStore.JStep (commits min) Job.May js a js' a') (hlen : js.length = a.procs.length)
    (h : Saved js a m key hash res) : Saved js' a' m key hash res := by
  obtain ⟨i, dto, q, c, x, hj, hq, hstage, hhandled⟩ := h
  obtain ⟨hj', q', hq', hstage'⟩ :=
    JStep.completed hs hlen hj hq (Job.carries_iff.mpr ⟨_, _, rfl⟩) hstage
  exact ⟨i, dto, q', c, x, hj', hq', hstage', hhandled⟩

/-- The response that a request has found is one that was saved for the same
fingerprint. -/
theorem JReach.source (h : JReach min (fun _ a => NoMiss a) js a) :
    ∀ {i : ℕ} {j : Job} {q : Bool × List Ev} {row : IdempotencyRow}, js[i]? = some j →
      j.carries m key = true → a.procs[i]? = some q → keyStage q.2 = .answered row →
      row.status = .completed →
      Saved js a m key row.requestHash ⟨row.responseStatus.getD 200, row.responseBody⟩ := by
  induction h with
  | init =>
    intro i j q row hj
    simp at hj
  | @step js a js' a' hr hs hP ih =>
    intro i j q row hj hc hq hstage hstatus
    have hkept : ∀ {q' : Bool × List Ev}, js[i]? = some j → a.procs[i]? = some q' →
        keyStage q'.2 = .answered row →
        Saved js' a' m key row.requestHash ⟨row.responseStatus.getD 200, row.responseBody⟩ :=
      fun hj hq' hstage => JStep.saved hs hr.sized.1 (ih hj hc hq' hstage hstatus)
    cases hs with
    | start j' live =>
      rw [List.getElem?_append] at hj hq
      rw [hr.sized.1] at hj
      split at hq
      · rename_i hlt
        rw [if_pos hlt] at hj
        exact hkept hj hq hstage
      · rw [List.getElem?_singleton] at hq
        split at hq
        · cases hq
          simp at hstage
        · simp at hq
    | tick n => exact hkept hj hq hstage
    | fault k log f live hk =>
      rw [List.getElem?_set] at hq
      split at hq
      · rename_i hik
        subst hik
        split at hq
        · cases hq
          rw [keyStage_fault] at hstage
          exact hkept hj hk hstage
        · simp at hq
      · exact hkept hj hq hstage
    | quiet k was log live hk _ =>
      rw [List.getElem?_set] at hq
      split at hq
      · rename_i hik
        subst hik
        split at hq
        · cases hq
          exact hkept hj hk hstage
        · simp at hq
      · exact hkept hj hq hstage
    | commit k j' log it p live hj' hk hinv hg hmay =>
      rw [List.getElem?_set] at hq
      split at hq
      · rename_i hik
        subst hik
        split at hq
        · cases hq
          rw [hj] at hj'
          cases hj'
          obtain ⟨hash, dto, rfl⟩ := Job.carries_iff.mp hc
          obtain ⟨_, hkey, hkeyed⟩ := id hmay
          cases hkey
          have hact := hkeyed.act
          rw [hstage] at hact
          cases hact with
          | found row place =>
            -- the row it has found is that of the request that holds the key
            obtain ⟨i₀, dto₀, q₀, hj₀, hq₀, hmatch⟩ :=
              JReach.holder hr (Commit.get_found hg).symm
            generalize hst : keyStage q₀.2 = st at hmatch
            cases st with
            | running c x =>
              have hopen : row.status = .inProgress := hmatch
              simp [hopen] at hstatus
            | completed c x res =>
              obtain ⟨-, hhandled, rfl⟩ := hmatch
              exact JStep.saved (.commit js a k _ log _ p live hj hk hinv hg hmay) hr.sized.1
                ⟨i₀, dto₀, q₀, c, x, hj₀, hq₀, hst, hhandled⟩
            | _ => exact hmatch.elim
        · simp at hq
      · exact hkept hj hq hstage

end Rows

/-! ## The requests of a run -/

/-- A request whose transfer has been committed has that transfer in its stage. -/
theorem JReach.sent_of_transfer {min : ℤ} {P : List Job → Abs → Prop} {js : List Job} {a : Abs}
    (h : JReach min P js a) {i : ℕ} {m : Uuid} {key hash : Text} {dto : CreateTransferDto}
    {q : Bool × List Ev} {it : Item} (hj : js[i]? = some (.postTransfer m (some key) hash dto))
    (hq : a.procs[i]? = some q) (hmem : (i, it) ∈ a.history) (hit : it.isTransfer = true) :
    (keyStage q.2).sent = 1 := by
  refine TxStore.JReach.each_committed (F := fun i j log hist => ∀ it : Item,
    j.carries m key = true → (i, it) ∈ hist → it.isTransfer = true → (keyStage log).sent = 1)
    ?_ ?_ ?_ ?_ h i _ q hj hq it
    (Job.carries_iff.mpr ⟨_, _, rfl⟩) hmem hit
  · intro i j hist hknown it _ hmem
    exact absurd (hknown _ hmem) (lt_irrefl i)
  · intro i j log f hist hF
    rw [keyStage_fault]
    exact hF
  · intro js a i j log it p now d hist _ _ _ hmay hF it' hc hmem htransfer
    have hold : (i, it') ∈ hist → (keyStage log).sent = 1 := fun hold => hF it' hc hold htransfer
    obtain ⟨hash, dto, rfl⟩ := Job.carries_iff.mp hc
    obtain ⟨_, hkey, hkeyed⟩ := hmay
    cases hkey
    have hact := hkeyed.act
    generalize keyStage (log ++ it.events) = after at hact
    rcases List.mem_append.mp hmem with hmem | hmem
    · have hsent := hold hmem
      cases hact with
      | insert place | found row place | missed place | release c place =>
        simp [place, KeyStage.sent] at hsent
      | transfer c evs place => rfl
      | complete c x status body place handled =>
        rw [place] at hsent
        cases x with
        | false => simp [KeyStage.sent] at hsent
        | true => rfl
    · rw [List.mem_singleton, Prod.mk.injEq] at hmem
      obtain ⟨-, rfl⟩ := hmem
      cases hact with
      | insert | found | missed | release | complete => simp [Item.isTransfer] at htransfer
      | transfer c evs place => rfl
  · intro i j log k it hist hik hF it' hc hmem htransfer
    rcases List.mem_append.mp hmem with hmem | hmem
    · exact hF it' hc hmem htransfer
    · rw [List.mem_singleton, Prod.mk.injEq] at hmem
      exact absurd hmem.1.symm hik

/-- An error response is one of a request that has sent nothing. -/
theorem Answered.sent_eq_zero {m : Uuid} {hash : Text} {dto : CreateTransferDto} {log : List Ev}
    {res : Response} (h : Answered m hash dto log res) (hstatus : 400 ≤ res.status) :
    (keyStage log).sent = 0 := by
  unfold Answered at h
  split at h
  · rename_i hstage
    rw [hstage]
    rfl
  · rename_i c x hstage
    rw [hstage, h.not_executed hstatus]
    rfl
  · rename_i row hstage
    rw [hstage]
    rfl
  · rename_i c x r hstage
    obtain ⟨rfl, hhandled⟩ := h
    rw [hstage, hhandled.not_executed hstatus]
    rfl
  · rename_i c hstage
    rw [hstage]
    rfl

def Node.response? (n : Node) : Option Response :=
  match n.proc with
  | .run (.ret (.response res)) => some res
  | _ => none

theorem Node.response?_eq_some {n : Node} {res : Response} (h : Node.response? n = some res) :
    n.proc = .run (.ret (.response res)) := by
  unfold Node.response? at h
  split at h
  · rename_i hproc
    cases h
    exact hproc
  · simp at h

section

variable {min : ℤ} {ls : List Step} {s : Sys}

/-- In a run without a read of a deleted row, nobody has read a key row in vain. -/
theorem noMiss_of_keyStillThere (h : RunBy min (fun s l _ => s.keyStillThere l = true) ls s) :
    NoMiss s.abs := by
  induction h with
  | init =>
    intro i m key hmem
    simp [TxStore.Sys.abs, TxStore.Sys.init] at hmem
  | @step ls s s' l _ hstep hok ih =>
    intro i m key hmem
    have hmem : (i, Item.auto (.idempotencyGet m key) none) ∈ s'.history := hmem
    rcases Sys.step_history hstep with ⟨hsame, -⟩ | ⟨i', u, n, n', it, ws, rfl, hn, hnode, hlast⟩
    · rw [hsame] at hmem
      exact ih i m key hmem
    · rw [hlast] at hmem
      rcases List.mem_append.mp hmem with hold | hnew
      · exact ih i m key hold
      · simp only [List.mem_singleton, Prod.mk.injEq] at hnew
        obtain ⟨rfl, rfl⟩ := hnew
        obtain ⟨⟨k, hproc⟩, hexec⟩ := Node.step_auto hnode
        have hout : (Sql.exec (.idempotencyGet m key) ⟨s.now, u⟩ (s.busy i) s.db).out =
          .ok (none, ws) := hexec
        have hgone := (Sql.idempotencyGet_ok hout).1
        have hquery : Node.query? n = some (.idempotencyGet m key) := by
          rw [Node.query?, hproc]
        simp [Sys.keyStillThere, hn, hquery, ← hgone] at hok

theorem keyed_reach (h : RunBy min (fun s l _ => s.keyStillThere l = true) ls s) :
    JReach min (fun _ a => NoMiss a) (jobs ls) s.abs :=
  run_refines (fun _ _ _ _ hr hok hstep => noMiss_of_keyStillThere (.step hr hstep hok)) h

/-- What a request has answered, in terms of its stage. -/
theorem RunBy.answered {ok : Sys → Step → Sys → Prop} (h : RunBy min ok ls s) {i : ℕ} {m : Uuid}
    {key : Option Text} {hash : Text} {dto : CreateTransferDto} {n : Node} {res : Response}
    (hj : (jobs ls)[i]? = some (.postTransfer m key hash dto)) (hn : s.nodes[i]? = some n)
    (hres : Node.response? n = some res) : Answered m hash dto n.log res := by
  have hkeeps := Run.keeps (program_keeps min) h
  rw [List.forall₂_iff_get] at hkeeps
  obtain ⟨hi, hji⟩ := List.getElem?_eq_some_iff.mp hj
  obtain ⟨hi', hni⟩ := List.getElem?_eq_some_iff.mp hn
  have hnode := hkeeps.2 i hi hi'
  simp only [List.get_eq_getElem, hji, hni, TxStore.Node.Keeps, Node.response?_eq_some hres]
    at hnode
  obtain ⟨res', heq, hanswered⟩ := hnode
  cases heq
  exact hanswered

/-! ## At most one transfer -/

/-- As long as a request that finds its key taken also finds the key's row, the
requests that carry a key commit at most one transfer, and a request that
answers an error has committed none. -/
theorem transfers_once (h : RunBy min (fun s l _ => s.keyStillThere l = true) ls s) :
    (∀ m key, (transfersFor (jobs ls) m key s.history).length ≤ 1) ∧
      ∀ (i : ℕ) (m : Uuid) (key : Option Text) (hash : Text) (dto : CreateTransferDto) (n : Node)
        (res : Response), (jobs ls)[i]? = some (.postTransfer m key hash dto) →
        s.nodes[i]? = some n → Node.response? n = some res → 400 ≤ res.status →
        ∀ it, (i, it) ∈ s.history → Item.isTransfer it = false := by
  have hreach := keyed_reach h
  refine ⟨?_, ?_⟩
  · intro m key
    have hsends : (transfersFor (jobs ls) m key s.abs.history).length =
        tally (sending m key) (jobs ls) s.abs.procs := JReach.sends hreach
    have hholders : tally (holding m key) (jobs ls) s.abs.procs =
        if (Db.idempotency s.abs.db m key).isSome then 1 else 0 := JReach.holders hreach
    have hle : tally (sending m key) (jobs ls) s.abs.procs ≤
        tally (holding m key) (jobs ls) s.abs.procs := by
      refine tally_le ?_
      intro i j q hj hq
      rw [sending, holding]
      split
      · rename_i hc
        have hclaimed := JReach.claimed hreach hj hq hc
        generalize keyStage q.2 = st at hclaimed
        cases st with
        | running c x =>
          obtain rfl : c = true := hclaimed
          cases x <;> simp [KeyStage.sent, KeyStage.holds]
        | completed c x res =>
          obtain rfl : c = true := hclaimed
          cases x <;> simp [KeyStage.sent, KeyStage.holds]
        | start | answered | released => simp [KeyStage.sent]
      · exact le_refl _
    show (transfersFor (jobs ls) m key s.abs.history).length ≤ 1
    rw [hsends]
    refine le_trans hle ?_
    rw [hholders]
    split <;> omega
  · intro i m key hash dto n res hj hn hres hstatus it hmem
    have hanswered := RunBy.answered h hj hn hres
    have hzero := hanswered.sent_eq_zero hstatus
    cases key with
    | none =>
      obtain ⟨j, log, hj', hmay⟩ := JReach.may_of_mem hreach hmem
      rw [hj] at hj'
      cases hj'
      obtain ⟨_, hkey, -⟩ := hmay
      simp at hkey
    | some key =>
      cases hit : Item.isTransfer it with
      | false => rfl
      | true =>
        have hsent := JReach.sent_of_transfer hreach hj (abs_proc hn) hmem hit
        simp only at hsent
        omega

end

def hundred : IntDouble := ⟨100, by decide, by decide, by decide +kernel⟩

/-- Two wallets, and a balance of 100. -/
def paidHundred : List Step :=
  .start (.createWallet 1 .NGN) :: drive 0 1 1 ++
    .start (.createWallet 2 .NGN) :: drive 1 1 2 ++
    .start (.createIntent 1 ⟨hundred, .NGN, none, noReference⟩) :: drive 2 2 2 ++
    .start (.confirm 1 (smallId '3')) :: drive 3 10 10

/-- A transfer under a key, and its retry. -/
def retriedTransfer : List Step :=
  paidHundred ++
    .start (.postTransfer 1 (some "k".toList) "body".toList transferFifty) :: drive 4 11 20 ++
    .start (.postTransfer 1 (some "k".toList) "body".toList transferFifty) :: drive 5 2 40

theorem transfers_once_retried : ∃ s : Sys,
    (s.nodes.map Node.response?).getLast? = (s.nodes.map Node.response?)[4]? ∧
      (transfersFor (jobs retriedTransfer) 1 "k".toList s.history).length = 1 ∧
      ∀ m key, (transfersFor (jobs retriedTransfer) m key s.history).length ≤ 1 := by
  have hrun : (runWhile 10 (fun s l _ => s.keyStillThere l) retriedTransfer).any
      (fun s : Sys => decide ((s.nodes.map Node.response?).getLast? =
          (s.nodes.map Node.response?)[4]? ∧
        (transfersFor (jobs retriedTransfer) 1 "k".toList s.history).length = 1)) = true := by
    decide +kernel
  obtain ⟨s, hs, hone⟩ := exists_runWhile hrun
  obtain ⟨hreplayed, hone⟩ := of_decide_eq_true hone
  exact ⟨s, hreplayed, hone, (transfers_once hs).1⟩

/-- Request 4 claims the key and fails on the server's side. Request 5 finds the
key taken, but reads its row only when 4 has deleted it, and runs its handler
without the key; meanwhile request 6 claims the key for another body. -/
def unguardedRequest : List Step :=
  paidHundred ++
    [.start (.postTransfer 1 (some "k".toList) "body".toList transferFifty), .run 4 20,
      .fault 4 (.connection "Connection terminated unexpectedly"),
      .start (.postTransfer 1 (some "k".toList) "body".toList transferFifty), .run 5 21,
      .run 4 22, .run 5 23,
      .start (.postTransfer 1 (some "k".toList) "other".toList transferFifty), .run 6 24]

/-- Both requests that run their handlers commit a transfer. -/
theorem transferred_twice : ∃ s : Sys,
    RunBy 10 (fun _ _ _ => True) (unguardedRequest ++ drive 5 9 30 ++ drive 6 9 40) s ∧
      (transfersFor (jobs (unguardedRequest ++ drive 5 9 30 ++ drive 6 9 40)) 1 "k".toList
        s.history).length = 2 := by
  have hrun : (runFrom 10 (unguardedRequest ++ drive 5 9 30 ++ drive 6 9 40)).any
      (fun s : Sys => decide ((transfersFor (jobs (unguardedRequest ++ drive 5 9 30 ++
        drive 6 9 40)) 1 "k".toList s.history).length = 2)) = true := by
    decide +kernel
  obtain ⟨s, hs, htwo⟩ := exists_run hrun
  exact ⟨s, hs, of_decide_eq_true htwo⟩

/-! ## Faithful replays -/

/-- What a request is answered by replay is what the handler has produced for
another request with its fingerprint, and what that request has been sent. -/
def FaithfulReplays (js : List Job) (s : Sys) : Prop :=
  ∀ (i : ℕ) (m : Uuid) (key hash : Text) (dto : CreateTransferDto) (n : Node)
    (row : IdempotencyRow) (res : Response),
    js[i]? = some (.postTransfer m (some key) hash dto) → s.nodes[i]? = some n →
    keyStage n.log = .answered row → row.requestHash = hash → row.status = .completed →
    Node.response? n = some res →
    ∃ (i₀ : ℕ) (dto₀ : CreateTransferDto) (n₀ : Node) (c x : Bool), i₀ ≠ i ∧
      js[i₀]? = some (.postTransfer m (some key) hash dto₀) ∧ s.nodes[i₀]? = some n₀ ∧
      keyStage n₀.log = .completed c x res ∧ Handled m dto₀ x res ∧
      ∀ res₀, Node.response? n₀ = some res₀ → res₀ = res

/-- A response is saved, and a key freed, only by the key's last claimant. -/
def SettledByClaimants (history : List (ℕ × Item)) : Prop :=
  ∀ (m : Uuid) (key : Text) (h₁ h₂ : List (ℕ × Item)) (i : ℕ) (it : Item),
    history = h₁ ++ (i, it) :: h₂ → Item.settlesKey m key it = true →
    claimant m key h₁ = some i

/-- Under the condition of `transfers_once`, replays are faithful and no request
saves or frees under another's claim. -/
theorem replays_faithful {min : ℤ} {ls : List Step} {s : Sys}
    (h : RunBy min (fun s l _ => s.keyStillThere l = true) ls s) :
    FaithfulReplays (jobs ls) s ∧ SettledByClaimants s.history := by
  have hreach := keyed_reach h
  refine ⟨?_, fun m key h₁ h₂ i it => JReach.settled_by_claimant hreach⟩
  intro i m key hash dto n row res hj hn hstage hhash hstatus hres
  subst hhash
  obtain ⟨i₀, dto₀, q₀, c, x, hj₀, hq₀, hstage₀, hhandled⟩ :=
    JReach.source hreach hj (Job.carries_iff.mpr ⟨_, _, rfl⟩) (abs_proc hn) hstage hstatus
  obtain ⟨n₀, hn₀, rfl⟩ := of_abs_proc hq₀
  have hreplayed : res = ⟨row.responseStatus.getD 200, row.responseBody⟩ := by
    have hanswered := RunBy.answered h hj hn hres
    rw [Answered, hstage] at hanswered
    exact (if_pos ⟨rfl, hstatus⟩).mp hanswered
  rw [← hreplayed] at hstage₀ hhandled
  refine ⟨i₀, dto₀, n₀, c, x, ?_, hj₀, hn₀, hstage₀, hhandled, ?_⟩
  · rintro rfl
    rw [hn] at hn₀
    cases hn₀
    rw [hstage] at hstage₀
    simp at hstage₀
  · intro res₀ hres₀
    have hanswered := RunBy.answered h hj₀ hn₀ hres₀
    rw [Answered, show keyStage n₀.log = .completed c x res from hstage₀] at hanswered
    exact hanswered.1

/-- The node has been answered by replay, under the fingerprint `hash`. -/
def Node.replayed (hash : Text) (n : Node) : Bool :=
  (Node.response? n).isSome && match keyStage n.log with
    | .answered row => decide (row.requestHash = hash ∧ row.status = .completed)
    | _ => false

theorem Node.replayed_iff {hash : Text} {n : Node} (h : Node.replayed hash n = true) :
    ∃ row res, Node.response? n = some res ∧ keyStage n.log = .answered row ∧
      row.requestHash = hash ∧ row.status = .completed := by
  simp only [Node.replayed, Bool.and_eq_true] at h
  obtain ⟨hres, hrow⟩ := h
  obtain ⟨res, hres⟩ := Option.isSome_iff_exists.mp hres
  split at hrow
  · rename_i row hstage
    exact ⟨row, res, hres, hstage, of_decide_eq_true hrow⟩
  · simp at hrow

theorem replays_faithful_retried : ∃ s : Sys, (∃ n ∈ s.nodes, Node.replayed "body".toList n = true) ∧
    FaithfulReplays (jobs retriedTransfer) s ∧ SettledByClaimants s.history := by
  have hrun : (runWhile 10 (fun s l _ => s.keyStillThere l) retriedTransfer).any
      (fun s : Sys => s.nodes.any (fun n => Node.replayed "body".toList n)) = true := by
    decide +kernel
  obtain ⟨s, hs, hreplayed⟩ := exists_runWhile hrun
  exact ⟨s, by simpa using hreplayed, replays_faithful hs⟩

/-- The unguarded request saves its response in the row of request 6, and
request 7, which repeats 6, is answered with it while 6 has not come to its
handler. -/
def mixedReplay : List Step :=
  unguardedRequest ++ drive 5 10 30 ++
    .start (.postTransfer 1 (some "k".toList) "other".toList transferFifty) :: drive 7 2 50

def Job.hashedAs (hash : Text) : Job → Bool
  | .postTransfer _ _ hash' _ => decide (hash' = hash)
  | _ => false

theorem replayed_other_body : ∃ s : Sys, RunBy 10 (fun _ _ _ => True) mixedReplay s ∧
    ¬ FaithfulReplays (jobs mixedReplay) s ∧ ¬ SettledByClaimants s.history := by
  have hrun : (runFrom 10 mixedReplay).any (fun s : Sys =>
      s.nodes[7]?.any (fun n => Node.replayed "other".toList n) &&
        s.nodes[6]?.any (fun n => decide (keyStage n.log = .running true false)) &&
        s.history[10]?.any (fun x => x.1 == 5 && Item.settlesKey 1 "k".toList x.2) &&
        decide (claimant 1 "k".toList (s.history.take 10) = some 6)) = true := by
    decide +kernel
  obtain ⟨s, hs, htest⟩ := exists_run hrun
  simp only [Bool.and_eq_true, Option.any_eq_true] at htest
  obtain ⟨⟨⟨⟨n, hn, hreplayed⟩, n₆, hn₆, hrunning⟩, ⟨i, it⟩, hitem, hi, hsettles⟩, hclaimant⟩ :=
    htest
  refine ⟨s, hs, ?_, ?_⟩
  · intro hfaithful
    obtain ⟨row, res, hres, hstage, hhash, hstatus⟩ := Node.replayed_iff hreplayed
    obtain ⟨i₀, dto₀, n₀, c, x, hne, hj₀, hn₀, hstage₀, -⟩ :=
      hfaithful 7 1 "k".toList "other".toList transferFifty n row res rfl hn hstage hhash hstatus
        hres
    have hsame : ((jobs mixedReplay).zipIdx.filter (fun x =>
        Job.hashedAs "other".toList x.1)).map Prod.snd = [6, 7] := by
      decide +kernel
    have hmem : i₀ ∈ [6, 7] := by
      rw [← hsame, List.mem_map]
      refine ⟨(_, i₀), List.mem_filter.mpr ⟨List.mem_zipIdx_iff_getElem?.mpr hj₀, ?_⟩, rfl⟩
      exact decide_eq_true (Eq.refl "other".toList)
    obtain rfl : i₀ = 6 := by
      simp only [List.mem_cons, List.not_mem_nil, or_false] at hmem
      omega
    rw [hn₆] at hn₀
    cases hn₀
    rw [of_decide_eq_true hrunning] at hstage₀
    simp at hstage₀
  · intro hsettled
    obtain ⟨hlt, hget⟩ := List.getElem?_eq_some_iff.mp hitem
    have hsplit : s.history = s.history.take 10 ++ (i, it) :: s.history.drop 11 := by
      rw [← hget, ← List.drop_eq_getElem_cons hlt, List.take_append_drop]
    have hown := hsettled 1 "k".toList _ _ i it hsplit hsettles
    rw [of_decide_eq_true hclaimant] at hown
    simp only [Option.some.injEq] at hown
    simp [← hown] at hi

end PaymentApis
