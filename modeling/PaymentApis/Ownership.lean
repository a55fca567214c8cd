import PaymentApis.Isolation
import PaymentApis.Sessions
import PaymentApis.Lib.Beside

/-!
# Whose the rows are

A request is admitted before its handler runs, so the merchant it runs for has an
account. A row belongs to the merchant of a request, or to whom the rows it was
made from belong; the tables therefore refer to accounts only, which nothing
deletes.
-/

namespace PaymentApis

open TxStore Processes

/-! ## Rows and the requests they come from -/

/-- The statement inserts a row for the merchant, or rewrites one of its keys. -/
def Item.Names (m : Uuid) : Item → Prop
  | .auto (.walletCreate m' _) _ => m' = m
  | .auto (.intentInsert m' _ _ _) _ => m' = m
  | .auto (.endpointInsert m' _ _) _ => m' = m
  | .auto (.accountInsert m' _ _ _) _ => m' = m
  | .auto (.idempotencyInsert m' _ _) _ => m' = m
  | .auto (.idempotencyComplete m' _ _ _) _ => m' = m
  | .auto (.idempotencyRelease m' _) _ => m' = m
  | _ => False

/-- A row of the tables belongs to the merchant. -/
def Db.Has (d : Db) (m : Uuid) : Prop := ∃ r, d.Owns m r

section Commit

variable {min : ℤ} {log : List Ev} {now : ℕ} {d : Db} {it : Item} {ws : List Row} {m : Uuid}

theorem Db.has_wallet {w : WalletRow} (h : d.wallet w.id = some w) : d.Has w.merchantId :=
  ⟨.wallet w, Table.mem_of_get (Db.wallet_eq_some.mp h), rfl⟩

theorem Db.has_intent {i : PaymentIntentRow} (h : d.intent i.id = some i) : d.Has i.merchantId :=
  ⟨.intent i, Table.mem_of_get (Db.intent_eq_some.mp h), rfl⟩

theorem Db.has_payout {p : PayoutRow} {id : Uuid} (h : d.payout id = some p) :
    d.Has p.merchantId :=
  ⟨.payout p, Table.mem_of_get (Db.payout_eq_some.mp h), rfl⟩

/-- A process that acts for a merchant names that merchant, and a worker names
none. -/
theorem Job.May.names {j : Job} (h : j.May log it) (hm : it.Names m) : j.merchant = some m := by
  have hworker : ∀ {scope : Option Uuid}, WorkerMay scope it → False := by
    intro scope hworker
    unfold Item.Names at hm
    split at hm
    all_goals first
      | exact hworker
      | exact hm
  cases hmerchant : j.merchant with
  | some m₀ =>
    have hacts := h.actsFor hmerchant
    unfold Item.Names at hm
    split at hm
    all_goals first
      | exact congrArg some (Eq.trans (Eq.symm hacts) hm)
      | exact hm.elim
  | none =>
    cases j with
    | sweep scope => exact (hworker h).elim
    | processDue limit scope => exact (hworker h).elim
    | tick => exact (hworker h).elim
    | _ => cases hmerchant

/-- Whoever a commit gives a row to is named by it, or has rows already. -/
theorem Commit.owner_known (h : Commit min log now d it ws) : ∀ r ∈ ws, ∀ n,
    r.owner (Table.install d ws) = some n → it.Names n ∨ d.Has n := by
  intro r hr n howner
  have hlater := h.later
  have hentry : ∀ {e : LedgerEntryRow} {w : WalletRow}, d.wallet e.walletId = some w →
      d.Has w.merchantId → r = .entry e → d.Has n := by
    rintro e w hw hhas rfl
    rw [owner_entry_later hlater hw, Option.some.injEq] at howner
    exact howner ▸ hhas
  have hplain : ∀ {k : Uuid}, r.owner (Table.install d ws) = some k → d.Has k → d.Has n := by
    intro k hk hhas
    rw [howner, Option.some.injEq] at hk
    exact hk ▸ hhas
  cases h with
  | query | accountFind | bank | sweepSkip => simp at hr
  | walletCreate row shape =>
    rw [List.mem_singleton] at hr
    subst hr
    exact .inl (shape.1.symm.trans (Option.some.inj howner))
  | intentInsert row shape =>
    rw [List.mem_singleton] at hr
    subst hr
    exact .inl (shape.1.symm.trans (Option.some.inj howner))
  | endpointInsert row shape =>
    rw [List.mem_singleton] at hr
    subst hr
    exact .inl (shape.1.symm.trans (Option.some.inj howner))
  | accountInsert row shape =>
    rw [List.mem_singleton] at hr
    subst hr
    exact .inl (shape.1.symm.trans (Option.some.inj howner))
  | claimDue limit scope rows idle nodup claimed =>
    obtain ⟨p, hp, rfl⟩ := List.mem_map.mp hr
    obtain ⟨q, hq, -, -, rfl⟩ := claimed p hp
    have hhas := Db.has_payout hq
    exact .inr (hplain rfl hhas)
  | markRetry p rest row message place remaining rowGet same =>
    rw [List.mem_singleton] at hr
    subst hr
    have hhas := Db.has_payout rowGet
    exact .inr (hplain rfl hhas)
  | keyed s r' ws hkey =>
    cases hkey with
    | get | completeNone | releaseNone => simp at hr
    | insert | complete | release =>
      rw [List.mem_singleton] at hr
      subst hr
      exact .inl (Option.some.inj howner)
  | transfer c =>
    simp only [TransferCommit.writes, List.mem_cons, List.not_mem_nil, or_false] at hr
    have hsource := Db.has_wallet c.sourceGet
    have hdest := Db.has_wallet c.destGet
    rcases hr with rfl | rfl | rfl | rfl | rfl
    · simp [Row.owner] at howner
    · exact .inr (hentry c.sourceGet hsource rfl)
    · exact .inr (hentry c.destGet hdest rfl)
    · exact .inr (hplain rfl hsource)
    · exact .inr (hplain rfl hdest)
  | confirm c =>
    simp only [ConfirmCommit.writes, List.mem_append, List.mem_cons, List.not_mem_nil,
      or_false] at hr
    have hwallet := Db.has_wallet c.walletGet
    have hintent := Db.has_intent c.intentGet
    have hcaller : d.Has _ := c.owner ▸ hintent
    rcases hr with (rfl | rfl | rfl | rfl | rfl) | hr
    · simp [Row.owner] at howner
    · exact .inr (hentry (e := c.entry) c.walletGet hwallet rfl)
    · exact .inr (hplain rfl hwallet)
    · exact .inr (hplain rfl hcaller)
    · exact .inr (hplain rfl hintent)
    · exact .inr (hplain (c.outbox.owner hr) hcaller)
  | cancel c =>
    simp only [CancelCommit.writes, List.mem_singleton] at hr
    subst hr
    have hhas := Db.has_intent c.intentGet
    exact .inr (hplain rfl hhas)
  | sweep c =>
    simp only [SweepCommit.writes, List.mem_cons, List.not_mem_nil, or_false] at hr
    have hwallet := Db.has_wallet c.walletGet
    rcases hr with rfl | rfl | rfl | rfl
    · simp [Row.owner] at howner
    · exact .inr (hentry (e := c.entry) c.walletGet hwallet rfl)
    · exact .inr (hplain rfl hwallet)
    · exact .inr (hplain rfl hwallet)
  | @paid p rest place c =>
    have hrow := Db.has_payout c.rowGet
    have hsame := c.same
    simp only [Row.fixed, Row.payout.injEq, PayoutRow.mk.injEq] at hsame
    simp only [PaidCommit.writes, List.mem_cons] at hr
    rcases hr with rfl | hr
    · exact .inr (hplain rfl hrow)
    · exact .inr (hplain (c.outbox.owner hr) (hsame.2.1 ▸ hrow))
  | @reversal p rest place c =>
    have hrow := Db.has_payout c.rowGet
    have hsame := c.same
    simp only [Row.fixed, Row.payout.injEq, PayoutRow.mk.injEq] at hsame
    have hwallet := Db.has_wallet c.walletGet
    simp only [ReversalCommit.writes, List.mem_append, List.mem_cons, List.not_mem_nil,
      or_false] at hr
    rcases hr with (rfl | rfl | rfl | rfl) | hr
    · simp [Row.owner] at howner
    · exact .inr (hentry (e := c.entry) c.walletGet hwallet rfl)
    · exact .inr (hplain rfl hwallet)
    · exact .inr (hplain rfl hrow)
    · exact .inr (hplain (c.outbox.owner hr) (hsame.2.1 ▸ hrow))

end Commit

section Runs

variable {min : ℤ} {ls : List Step} {s : Sys}

/-- Whoever owns a row has sent a request. -/
theorem owners_asked (h : RunBy min (fun _ _ _ => True) ls s) {m : Uuid} (hm : Db.Has s.db m) :
    ∃ j ∈ jobs ls, j.merchant = some m := by
  induction h generalizing m with
  | init =>
    obtain ⟨r, hr, -⟩ := hm
    cases hr
  | @step ls s s' l h hstep _ ih =>
    have hmono : (∃ j ∈ jobs ls, j.merchant = some m) →
        ∃ j ∈ jobs (ls ++ [l]), j.merchant = some m := by
      rintro ⟨j, hj, hjm⟩
      refine ⟨j, ?_, hjm⟩
      rw [jobs_append]
      exact List.mem_append_left _ hj
    have ha : AReach min (fun _ => True) s.abs := reach_refines (fun _ _ _ _ => trivial) h.reach
    rcases (run_step_refines h hstep).effect with ⟨hdb, -⟩ | ⟨k, j, log, it, p, hj, hk, hg, hmay,
        hdb, hlast⟩
    · have hdb : s'.db = s.db := hdb
      rw [hdb] at hm
      exact hmono (ih hm)
    · have hdb : s'.db = Table.install s.db p.writes := hdb
      have hc : Commit min log s.now s.db it p.writes := hg
      rw [hdb] at hm
      obtain ⟨r, hr, howner⟩ := hm
      rcases (Table.mem_install hc.nodup).mp hr with hnew | ⟨hold, -⟩
      · rcases hc.owner_known r hnew m howner with hnames | hhas
        · exact hmono ⟨j, List.mem_of_getElem? hj, hmay.names hnames⟩
        · exact hmono (ih hhas)
      · rw [owner_later hc.later (wellPosted ha) hold] at howner
        exact hmono (ih ⟨r, hold, howner⟩)

end Runs

/-! ## The API behind the middleware -/

namespace Auth

/-- A request has been admitted for the merchant. -/
def Guests.Admitted (g : Guests) (m : Uuid) : Prop :=
  ∃ n ∈ g.nodes, ∃ caller, Guest.caller n = some caller ∧ caller.id = m

/-- The handler of a protected route runs for a merchant who has been admitted. -/
def admits (g : Guests) (l : Step) : Prop :=
  ∀ j m, l = .start j → j.merchant = some m → g.Admitted m

/-- The API behind the middleware, with the schedule of its requests. -/
abbrev Guarded (lib : Libraries) (min : ℤ) : Guests → List Step × Sys → Prop :=
  Beside.Reach (fun g l g' => g.step (device lib) program l = some g' ∧ Genuine lib g l)
    (fun x l y => x.2.next min l = some y.2 ∧ y.1 = x.1 ++ [l]) admits (Pool.begin .empty)
    ([], TxStore.Sys.init)

section Guarded

variable {lib : Libraries} {min : ℤ} {g g' : Guests} {x : List Step × Sys} {m : Uuid}

theorem Guarded.each (h : Guarded lib min g x) :
    g.Reach lib (Genuine lib) ∧ RunBy min (fun _ _ _ => True) x.1 x.2 := by
  refine Beside.Reach.each (P := fun g => Guests.Reach lib (Genuine lib) g)
    (Q := fun x => RunBy min (fun _ _ _ => True) x.1 x.2) (.refl _) .init ?_ ?_ h
  · rintro g l g' hg ⟨hstep, hgenuine⟩
    exact .tail hg hstep hgenuine
  · rintro x l y hx ⟨hstep, hlabels⟩
    rw [hlabels]
    exact .step hx hstep trivial

/-- The merchant has shown a token that verifies. -/
def Guests.Seen (g : Guests) (m : Uuid) : Prop :=
  ∃ n ∈ g.nodes, ∃ token payload, verifiedBy token payload ∈ n.log ∧ payload.sub = m

theorem Guests.Seen.step (hseen : g.Seen m) (hg : g.Reach lib (Genuine lib)) {l : Turn}
    (hstep : g.step (device lib) program l = some g') : g'.Seen m := by
  obtain ⟨n, hn, token, payload, hverified, hsub⟩ := hseen
  have hfollows := (Discipline.follows_begin (discipline lib) .empty).runs hg
  obtain ⟨n', hn', -, hlog⟩ := (hfollows.step hstep).1.persists hn
  exact ⟨n', hn', token, payload, hlog.subset hverified, hsub⟩

theorem Guests.Admitted.seen (h : g.Admitted m) (hg : g.Reach lib (Genuine lib)) : g.Seen m := by
  obtain ⟨n, hn, caller, hcaller, rfl⟩ := h
  have hscript : n.script = some (.ret (.next caller)) := by
    unfold Guest.caller at hcaller
    split at hcaller
    · rename_i hscript
      rw [hscript, Option.some.inj hcaller]
    · cases hcaller
  have hends : ends n.job n.log (.next caller) := ended hg n hn _ hscript
  cases hjob : n.job with
  | guarded header =>
    rw [hjob] at hends
    obtain ⟨token, payload, -, hlog, hreply⟩ := hends
    cases hreply
    exact ⟨n, hn, token, payload, by simp [hlog], rfl⟩
  | register dto =>
    rw [hjob] at hends
    obtain ⟨_, _, -, hreply⟩ := hends
    cases hreply
  | login dto =>
    rw [hjob] at hends
    obtain ⟨_, _, -, hreply⟩ := hends
    cases hreply
  | me header =>
    rw [hjob] at hends
    obtain ⟨_, _, _, -, -, hreply⟩ := hends
    cases hreply

theorem Guarded.seen (h : Guarded lib min g x) :
    ∀ j ∈ jobs x.1, ∀ m, j.merchant = some m → g.Seen m := by
  refine Beside.Reach.between (P := fun g => Guests.Reach lib (Genuine lib) g)
    (Q := fun _ => True)
    (I := fun g x => g.Reach lib (Genuine lib) ∧
      ∀ j ∈ jobs x.1, ∀ m, j.merchant = some m → Guests.Seen g m) (.refl _) trivial
    ⟨.refl _, ?_⟩ ?_ (fun _ _ => trivial) ?_ ?_ h |>.2
  · intro j hj
    cases hj
  · rintro g l g' hg ⟨hstep, hgenuine⟩
    exact .tail hg hstep hgenuine
  · rintro g l g' x hg ⟨hstep, hgenuine⟩ ⟨-, hseen⟩
    exact ⟨.tail hg hstep hgenuine, fun j hj m hm => (hseen j hj m hm).step hg hstep⟩
  · rintro g x l y - ⟨-, hlabels⟩ hadmits ⟨hg, hseen⟩
    refine ⟨hg, ?_⟩
    intro j hj m hm
    rw [hlabels, jobs_append] at hj
    rcases List.mem_append.mp hj with hold | hnew
    · exact hseen j hold m hm
    · cases l with
      | start j' =>
        obtain rfl := List.mem_singleton.mp hnew
        exact (hadmits j m rfl hm).seen hg
      | _ => cases hnew

/-- Whoever owns a row has an account, and has logged in to it: the tables refer
to merchants that are there. -/
theorem owners_logged_in (hlib : lib.Documented) (h : Guarded lib min g x) {m : Uuid}
    (hm : Db.Has x.2.db m) : ∃ row ∈ g.world.merchants.rows, row.id = m ∧
      ∃ token iat, Session lib g token ⟨row.id, row.email⟩ iat := by
  obtain ⟨hg, hx⟩ := h.each
  obtain ⟨j, hj, hjm⟩ := owners_asked hx hm
  obtain ⟨n, hn, token, payload, hverified, rfl⟩ := h.seen j hj m hjm
  obtain ⟨iat, hsession⟩ := (known hg).seen_session hlib (presented hg) hn hverified
  obtain ⟨_, -, _, row, -, -, hpayload, hrow, -⟩ := hsession.login
  subst hpayload
  exact ⟨row, hrow, rfl, token, iat, hsession⟩

/-- The middleware has let some pass, and the handlers run. -/
theorem Guarded.of_runs {ls : List Step} {s : Sys} {ok : Sys → Step → Sys → Prop}
    (hg : g.Reach lib (Genuine lib)) (hok : ∀ s l s', ok s l s' → admits g l)
    (hs : RunBy min ok ls s) : Guarded lib min g (ls, s) := by
  have hfirst : Guarded lib min g ([], TxStore.Sys.init) := by
    clear hok hs
    induction hg with
    | refl => exact .begin
    | tail _ hstep hgenuine ih => exact .first ih ⟨hstep, hgenuine⟩
  induction hs with
  | init => exact hfirst
  | step _ hstep hadmits ih => exact .second ih ⟨hstep, rfl⟩ (hok _ _ _ hadmits)

/-- A request to a protected route. -/
def callWallets : List Turn :=
  [.start (.guarded (some (bearer ++ ownerToken))), .run 3 (.done 0)]

def openWallet : List Step := .start (.createWallet 1 .NGN) :: drive 0 1 1

def asksFor (m : Uuid) : Step → Bool
  | .start j => decide (j.merchant = some m)
  | _ => true

theorem owners_logged_in_wallet : ∃ (g : Guests) (s : Sys) (m : Uuid), Db.Has s.db m ∧
    ∃ row ∈ g.world.merchants.rows, row.id = m ∧
      ∃ token iat, Session plainLibraries g token ⟨row.id, row.email⟩ iat := by
  have hguests : (runTo (registerTwice ++ logIn ++ callWallets)).any (fun g =>
      (g.nodes[3]?).any (fun n => decide
        (Guest.caller n = some ⟨1, "owner@shop.example".toList⟩))) = true := by decide +kernel
  obtain ⟨g, hg, hpassed⟩ := exists_of_runTo hguests
  rw [Option.any_eq_true] at hpassed
  obtain ⟨n, hn, hcaller⟩ := hpassed
  have hadmitted : g.Admitted 1 :=
    ⟨n, List.mem_of_getElem? hn, _, of_decide_eq_true hcaller, rfl⟩
  have hwallet : (runWhile 10 (fun _ l _ => asksFor 1 l) openWallet).any (fun s : Sys => decide
      (∃ w ∈ Db.wallets s.db, w.merchantId = 1)) = true := by decide +kernel
  obtain ⟨s, hs, hmem⟩ := exists_runWhile hwallet
  obtain ⟨w, hw, hone⟩ := of_decide_eq_true hmem
  have hguarded : Guarded plainLibraries 10 g (openWallet, s) := by
    refine Guarded.of_runs hg ?_ hs
    rintro s l s' hasks j m rfl hm
    obtain rfl := Option.some.inj ((of_decide_eq_true hasks).symm.trans hm)
    exact hadmitted
  have hhas : Db.Has s.db 1 :=
    hone ▸ Db.has_wallet (Db.wallet_eq_some.mpr (Db.mem_wallets.mp hw))
  exact ⟨g, s, 1, hhas, owners_logged_in plainLibraries_documented hguarded hhas⟩

end Guarded

end Auth

end PaymentApis
