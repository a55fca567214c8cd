import PaymentApis.Amounts
import PaymentApis.Money

/-!
# What clients have asked for

Money comes into the system by confirms of payment intents, and an intent by the
request of a client. Per currency, the balances, the payouts that have not failed
and the intents that wait for their confirm add up to no more than the amounts of
the requests.
-/

namespace PaymentApis

open TxStore

/-- What the job asks to put on an intent of the currency, as `String(amount)` has it. -/
def Job.requests (c : Currency) : Job → ℕ
  | .createIntent _ dto => if dto.currency = c then shortest dto.amount.val else 0
  | _ => 0

/-- What the clients of a schedule ask for in a currency. -/
def requested (c : Currency) (ls : List Step) : ℕ := ((jobs ls).map (Job.requests c)).sum

/-- The amounts of the intents that can still be confirmed. -/
def Db.awaiting (d : Db) (c : Currency) : ℤ :=
  (d.intents.map (fun x =>
    if x.currency = c ∧ x.status = .requiresConfirmation then x.amount.val else 0)).sum

/-- What a row adds to open intents plus charges. -/
def earmark (c : Currency) : Row → ℤ
  | .intent x => if x.currency = c ∧ x.status = .requiresConfirmation then x.amount.val else 0
  | .charge x => if x.currency = c then x.amount.val else 0
  | _ => 0

theorem total_earmark (d : Db) (c : Currency) :
    d.total (earmark c) = d.awaiting c + d.charged c := by
  unfold Db.awaiting Db.charged Db.intents Db.charges Table.total
  induction d.rows with
  | nil => rfl
  | cons r rows ih =>
    rw [List.map_cons, List.sum_cons, ih]
    cases r <;> simp [earmark, Row.asIntent, Row.asCharge, List.filterMap_cons] <;> ring

/-! ## One commit -/

/-- The amount of a new intent of the currency. -/
def Item.earmarks (c : Currency) : Item → ℤ
  | .auto (.intentInsert _ _ _ _) row => if row.currency = c then row.amount.val else 0
  | _ => 0

theorem Item.earmarks_nonneg (c : Currency) (it : Item) : 0 ≤ it.earmarks c := by
  unfold Item.earmarks
  split
  · rename_i row
    have hpos := row.check
    split <;> omega
  · rfl

section Commits

variable {min : ℤ} {log : List Ev} {now : ℕ} {d : Db} {it : Item} {ws : List Row}

/-- A confirm turns an open intent into a charge; nothing but a request makes more. -/
theorem Commit.total_earmark (h : Commit min log now d it ws) (cur : Currency) :
    Table.total (earmark cur) (d.install ws) ≤ d.total (earmark cur) + it.earmarks cur := by
  have hnd := h.nodup
  have hnew := it.earmarks_nonneg cur
  have houtbox : ∀ rows : List WebhookEventRow,
      (rows.map (fun e => earmark cur (.event e))).sum = 0 := by
    intro rows
    apply List.sum_eq_zero
    intro x hx
    obtain ⟨e, -, rfl⟩ := List.mem_map.mp hx
    rfl
  -- what is neither an intent nor a charge does not count
  suffices hle : (∃ row : PaymentIntentRow, it.earmarks cur = earmark cur (.intent row) ∧
      ws = [.intent row] ∧ d.get (.intent row.id) = none) ∨
      Table.total (earmark cur) (d.install ws) ≤ d.total (earmark cur) by
    rcases hle with ⟨row, hearmarks, rfl, hfresh⟩ | hle
    · rw [Table.install_cons, Table.install_nil, Table.total_put_new _ hfresh, hearmarks]
    · omega
  cases h with
  | query | accountFind | bank | sweepSkip => exact Or.inr le_rfl
  | keyed s r ws hkey => exact Or.inr (hkey.total _ (fun _ => rfl)).le
  | intentInsert row shape parsed fresh =>
    refine Or.inl ⟨row, ?_, rfl, fresh⟩
    simp [Item.earmarks, earmark, shape.2.2.2]
  | walletCreate row shape owner fresh =>
    refine Or.inr (le_of_eq ?_)
    rw [Table.install_cons, Table.install_nil, Table.total_put_new _ fresh]
    simp [earmark]
  | endpointInsert row shape fresh =>
    refine Or.inr (le_of_eq ?_)
    rw [Table.install_cons, Table.install_nil, Table.total_put_new _ fresh]
    simp [earmark]
  | accountInsert row shape owner fresh =>
    refine Or.inr (le_of_eq ?_)
    rw [Table.install_cons, Table.install_nil, Table.total_put_new _ fresh]
    simp [earmark]
  | claimDue limit m rows idle nodup claimed =>
    refine Or.inr (le_of_eq (total_same _ hnd ?_))
    intro r hr
    obtain ⟨p, hp, rfl⟩ := List.mem_map.mp hr
    obtain ⟨q, hq, -, -, hpq⟩ := claimed p hp
    rw [Row.key, Db.payout_eq_some.mp hq, hpq]
    rfl
  | markRetry p rest row message place remaining rowGet same =>
    have hid : row.id = p.id := Db.id_of_payout rowGet
    refine Or.inr (le_of_eq (total_same _ hnd ?_))
    intro r hr
    rw [List.mem_singleton] at hr
    subst hr
    simp only [Row.key, hid, Db.payout_eq_some.mp rowGet]
    rfl
  | transfer c =>
    refine Or.inr (le_of_eq ?_)
    rw [c.total _ hnd]
    simp [earmark]
  | confirm c =>
    refine Or.inr (le_of_eq ?_)
    rw [c.total _ hnd, houtbox]
    simp only [earmark, ConfirmCommit.charge, ConfirmCommit.newIntent, c.confirmable, and_true,
      reduceCtorEq, and_false, if_false]
    by_cases hcur : c.intent.currency = cur
    · simp only [hcur, if_true]
      omega
    · simp only [hcur, if_false]
      omega
  | cancel c =>
    refine Or.inr ?_
    have hpos := c.intent.check
    rw [c.total _ hnd]
    simp only [earmark, CancelCommit.newIntent, reduceCtorEq, and_false, if_false]
    split <;> omega
  | sweep c =>
    refine Or.inr (le_of_eq ?_)
    rw [c.total _ hnd]
    simp [earmark]
  | paid rest place c =>
    refine Or.inr (le_of_eq ?_)
    rw [c.total _ hnd, houtbox]
    simp [earmark]
  | reversal rest place c =>
    refine Or.inr (le_of_eq ?_)
    rw [c.total _ hnd, houtbox]
    simp [earmark]

end Commits

/-! ## A request inserts its intent once -/

/-- What the job may commit, and an intent only as the first. -/
def Job.MayOnce (j : Job) (log : List Ev) (it : Item) : Prop :=
  j.May log it ∧ ∀ m amount c ref row, it = .auto (.intentInsert m amount c ref) row →
    insertedIntents log = []

theorem Job.May.inserts {j : Job} {log : List Ev} {it : Item} (h : j.May log it) {m : Uuid}
    {amount : Text} {c : Currency} {ref : Option String} {row : PaymentIntentRow}
    (hit : it = .auto (.intentInsert m amount c ref) row) :
    ∃ dto, j = .createIntent m dto ∧ amount = numText dto.amount.val ∧ c = dto.currency := by
  subst hit
  cases j with
  | createIntent m' dto =>
    rcases h with ⟨r, hr⟩ | ⟨r, hr⟩
    · cases hr
    · cases hr
      exact ⟨dto, rfl, rfl, rfl⟩
  | createWallet | registerEndpoint | registerAccount | confirm | cancel =>
    obtain ⟨r, hr⟩ := h
    cases hr
  | transfer =>
    obtain ⟨-, r, hr⟩ := h
    cases hr
  | postTransfer =>
    obtain ⟨k, -, hk⟩ := h
    exact hk.elim
  | sweep | processDue | runNow | tick => exact h.elim

theorem program_keeps_once (min : ℤ) (j : Job) :
    (program min j).Keeps engine j.MayOnce Ends Ends [] := by
  have hother : (∀ m dto, j ≠ .createIntent m dto) →
      (program min j).Keeps engine j.MayOnce Ends Ends [] := by
    intro hj
    refine Client.Keeps.imp ?_ (fun _ _ _ => trivial) (fun _ _ h => h) (program_keeps min j)
    intro log it hmay
    refine ⟨hmay, fun m amount c ref row hit => ?_⟩
    obtain ⟨dto, hcreate, -⟩ := hmay.inserts hit
    exact absurd hcreate (hj m dto)
  cases j with
  | createIntent m dto =>
    let Q : ∀ {β : Type}, List Ev → β → Prop := fun log _ => insertedIntents log = []
    refine Client.Keeps.bind (Q := Ends) ?_ (Client.Keeps.bind (Q := Q) ?_
      (keeps_query (fun _ => trivial) ?_))
    · exact fun _ _ _ => trivial
    · intro log found hlog
      cases found with
      | none => trivial
      | some w =>
        refine Client.Keeps.bind (Q := Ends) ?_ (keeps_query (fun _ => trivial) ?_)
        · exact fun _ _ _ => trivial
        · exact fun env busy d r ws _ => ⟨⟨Or.inr ⟨r, rfl⟩, fun _ _ _ _ _ _ => hlog⟩, trivial⟩
    · exact fun env busy d r ws _ => ⟨⟨Or.inl ⟨r, rfl⟩, fun _ _ _ _ _ _ => rfl⟩, rfl⟩
  | _ => exact hother (fun _ _ h => by cases h)

/-! ## Every run -/

/-- What a process has asked for and got. -/
def granted (c : Currency) (j : Job) (log : List Ev) : ℕ :=
  if insertedIntents log = [] then 0 else j.requests c

theorem granted_append {c : Currency} {j : Job} {log evs : List Ev} :
    granted c j log ≤ granted c j (log ++ evs) := by
  unfold granted
  rw [insertedIntents_append]
  by_cases hlog : insertedIntents log = []
  · rw [if_pos hlog]
    exact Nat.zero_le _
  · rw [if_neg hlog, if_neg (by simp [hlog])]

section Runs

variable {min : ℤ} {ls : List Step} {s : Sys} {ok : Sys → Step → Sys → Prop}

/-- One commit takes no more from clients than what they are granted. -/
theorem Commit.grants {log : List Ev} {now : ℕ} {d : Db} {it : Item} {ws : List Row} {j : Job}
    (h : Commit min log now d it ws) (hmay : j.MayOnce log it) (c : Currency) :
    (granted c j log : ℤ) + it.earmarks c ≤ granted c j (log ++ it.events) := by
  by_cases hinsert : ∃ m amount c ref row, it = .auto (.intentInsert m amount c ref) row
  · obtain ⟨m, amount, c', ref, row, rfl⟩ := hinsert
    have hfirst := hmay.2 _ _ _ _ _ rfl
    obtain ⟨dto, rfl, rfl, rfl⟩ := hmay.1.inserts rfl
    have hlast : insertedIntents (log ++ [.stmt (.intentInsert m (numText dto.amount.val)
        dto.currency ref) row]) = [row] := by
      rw [insertedIntents_append, hfirst]
      rfl
    unfold granted
    rw [if_pos hfirst, TxStore.Item.events, if_neg (by simp [hlast])]
    cases h with
    | query _ _ hquery => cases hquery
    | keyed _ _ _ hkey => cases hkey
    | intentInsert row shape parsed fresh =>
      rw [Bigint.parse_numText, Bigint.ofInt?_eq_some] at parsed
      simp only [Item.earmarks, Job.requests, shape.2.1, parsed]
      split <;> simp
  · have hnone : it.earmarks c = 0 := by
      unfold Item.earmarks
      split
      · rename_i row
        exact absurd ⟨_, _, _, _, row, rfl⟩ hinsert
      · rfl
    have hmono : PaymentApis.granted c j log ≤ granted c j (log ++ it.events) :=
      granted_append
    omega

/-- Open intents and charges have been asked for. -/
theorem earmark_le (h : RunBy min ok ls s) (c : Currency) :
    Table.total (earmark c) s.db ≤ requested c ls := by
  have hreach : TxStore.JReach (commits min) Job.MayOnce (fun _ _ => True) (jobs ls) s.abs :=
    Run.refines (commits_lawful min) trivial (fun j d _ => program_safe j d)
      (program_keeps_once min) (by simp [SideOk]) (fun _ _ _ _ _ _ _ => trivial) h
  have hgranted : Table.total (earmark c) s.abs.db ≤ tally (granted c) (jobs ls) s.abs.procs := by
    refine TxStore.JReach.invariant
      (fun js a => Table.total (earmark c) a.db ≤ (tally (granted c) js a.procs : ℤ)) ?_ ?_ hreach
    · rfl
    intro js a js' a' hr ih hs _
    have hlen := hr.sized.1
    cases hs with
    | start j live =>
      have hnew : tally (granted c) (js ++ [j]) (a.procs ++ [(live, [])]) =
          tally (granted c) js a.procs + granted c j [] := tally_append hlen
      simp only [hnew]
      omega
    | tick n => exact ih
    | fault i log f live hi =>
      have hsame : tally (granted c) js (a.procs.set i (live, log ++ [.fault f])) =
          tally (granted c) js a.procs := by
        refine tally_set_same hlen hi ?_
        intro j
        simp [granted, insertedIntents]
      simpa only [hsame] using ih
    | quiet i was log live hi =>
      have hsame : tally (granted c) js (a.procs.set i (live, log)) =
          tally (granted c) js a.procs := tally_set_same hlen hi (fun _ => rfl)
      simpa only [hsame] using ih
    | commit i j log it p live hj hi _ hg hmay =>
      have hset : tally (granted c) js (a.procs.set i (live, log ++ it.events)) +
          granted c j log = tally (granted c) js a.procs + granted c j (log ++ it.events) :=
        tally_set hj hi
      have hcommit : Commit min log a.now a.db it p.writes := hg
      have hearmarks := hcommit.total_earmark c
      have hgrant := hcommit.grants hmay c
      simp only
      omega
  refine hgranted.trans (Int.ofNat_le.mpr ?_)
  have hle : tally (granted c) (jobs ls) s.abs.procs ≤
      tally (fun j _ => j.requests c) (jobs ls) s.abs.procs := by
    refine tally_le (fun i j p _ _ => ?_)
    unfold granted
    split <;> omega
  exact hle.trans (tally_jobs hreach.sized.1).le

/-- As long as leases are not outlived, all money of a currency has been asked for. -/
theorem money_requested (h : RunBy min (fun _ _ s' => LeasesHold s'.abs) ls s) (c : Currency) :
    Db.balances s.db c + Db.paidOut s.db c + Db.awaiting s.db c ≤ requested c ls := by
  have hle := earmark_le h c
  have hconserved := surplus_eq_zero h.reach c
  rw [show s.abs.db.total (surplus c) = _ from total_surplus s.db c] at hconserved
  rw [total_earmark] at hle
  omega

end Runs

end PaymentApis
