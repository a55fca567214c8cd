import PaymentApis.Idempotency
import PaymentApis.Lib.Closing

/-!
# Orphaned keys

The row of a key is in progress from the INSERT of a request until that request
saves its response or frees the key. Nothing else revisits the row: the key
stays in progress when the request crashes before, or when that statement fails.
-/

namespace PaymentApis

open TxStore

/-! ## The program of a keyed request -/

/-- The statements with which the middleware ends a request. -/
def Stmt.persists : Stmt → Bool
  | .idempotencyComplete _ _ _ _ => true
  | .idempotencyRelease _ _ => true
  | _ => false

/-- The key is freed after a server error, else the response is saved. -/
def Persists (s : Stmt) (reply : Reply) : Prop :=
  ∃ (m : Uuid) (key : Text) (res : Response), reply = .response res ∧
    (500 ≤ res.status ∧ s = .idempotencyRelease m key ∨
      res.status < 500 ∧ s = .idempotencyComplete m key res.status res.body)

theorem Persists.persists {s : Stmt} {reply : Reply} (h : Persists s reply) :
    s.persists = true := by
  obtain ⟨m, key, res, -, ⟨-, rfl⟩ | ⟨-, rfl⟩⟩ := h <;> rfl

/-- The handler runs, and then its response is saved or the key freed. -/
abbrev Handles (c : Prog Reply) : Prop :=
  c.Closes Persists (fun _ => False) (fun _ => False)

/-- The request is answered. -/
def Replies (c : Prog Reply) : Prop := ∃ res, c = .ret (.response res)

/-- The key is taken, and its row is read: it is gone, or answers the request. -/
def Looks (m : Uuid) (key : Text) (c : Prog Reply) : Prop :=
  ∃ k, c = .query (.idempotencyGet m key) k ∧ Handles (k (.ok none)) ∧
    (∀ row, Replies (k (.ok (some row)))) ∧ ∀ e, Replies (k (.error e))

/-- The transaction that a program opens with its next step. -/
def opens? : Prog Reply → Option TxnName
  | .txn t _ _ => some t
  | _ => none

/-- The key is claimed, and then the handler goes into the transfer. -/
def Claims (m : Uuid) (key hash : Text) (dto : CreateTransferDto) (c : Prog Reply) : Prop :=
  ∃ k, c = .query (.idempotencyInsert m key hash) k ∧ Handles (k (.ok ())) ∧
    Looks m key (k (.error (.db .uniqueViolation))) ∧
    (∀ f, f ≠ .uniqueViolation → Replies (k (.error (.db f)))) ∧
    opens? (k (.ok ())) = some (.transfer m dto)

theorem replies_of_finished {c : Prog Response} (h : c.finished = true) :
    Replies (do
      let res ← c.tryCatch (fun err => return errorHandler err)
      return .response res) := by
  cases c with
  | ret res => exact ⟨res, rfl⟩
  | throw e => exact ⟨errorHandler e, rfl⟩
  | query | txn | call => cases h

theorem transferService.attempts_closes {m : Uuid} {dto : CreateTransferDto} :
    ∀ n : ℕ, (transferService.attempts m dto n).Closes (fun _ _ => False) (fun _ => True)
      (fun _ => True)
  | 0 => trivial
  | n + 1 => by
      refine Client.Closes.tryCatch (T := fun _ => True) ?_ ?_
      · intro e _
        split
        · exact transferService.attempts_closes n
        · trivial
      · intro r
        cases r <;> trivial

theorem idempotency.persist_closes {m : Uuid} {key : Text} (res : Response) :
    (idempotency.persist m key res).Closes (fun s res => Persists s (.response res))
      (fun _ => False) (fun _ => False) := by
  unfold idempotency.persist
  split
  · rename_i hserver
    refine ⟨res, ⟨m, key, res, rfl, .inl ⟨hserver, rfl⟩⟩, ?_⟩
    intro r
    cases r <;> rfl
  · rename_i hsaved
    refine ⟨res, ⟨m, key, res, rfl, .inr ⟨by omega, rfl⟩⟩, ?_⟩
    intro r
    cases r <;> rfl

/-- What a request runs once it has claimed its key, or has read its row in vain. -/
def keyHandler (m : Uuid) (key : Text) (dto : CreateTransferDto) : Prog Response := do
  let res ← (transferController.create m dto).tryCatch (fun err => return errorHandler err)
  idempotency.persist m key res

theorem keyHandler_handles (m : Uuid) (key : Text) (dto : CreateTransferDto) :
    Handles (do
      let res ← (keyHandler m key dto).tryCatch (fun err => return errorHandler err)
      return .response res) := by
  refine Client.Closes.map (p := fun s res => Persists s (.response res)) (Q := fun _ => False)
    (fun _ _ h => h) (fun _ h => h) ?_
  refine Client.Closes.orReturn (T := fun _ => False) (fun _ h => h) ?_
  refine Client.Closes.bind (Q := fun _ => True) (fun res _ => idempotency.persist_closes res) ?_
  refine Client.Closes.tryCatch (T := fun _ => True) ?_
    (Client.Closes.bind (Q := fun _ => True) ?_ (transferService.attempts_closes _))
  · exact fun _ _ => (trivial : True)
  · exact fun _ _ => (trivial : True)

theorem idempotency.replay_finished (row : IdempotencyRow) (hash : Text) :
    (idempotency.replay row hash).finished = true := by
  unfold idempotency.replay
  split
  · rfl
  · split <;> rfl

theorem postTransfer_claims {min : ℤ} {m : Uuid} {key hash : Text} {dto : CreateTransferDto}
    (hkey : key ≠ []) :
    Claims m key hash dto (program min (.postTransfer m (some key) hash dto)) := by
  have hhandles := keyHandler_handles m key dto
  simp only [program, postTransfer, idempotency, if_neg hkey]
  refine ⟨_, rfl, hhandles, ⟨_, rfl, hhandles, ?_, ?_⟩, ?_, rfl⟩
  · exact fun row => replies_of_finished (idempotency.replay_finished row hash)
  · exact fun e => ⟨_, rfl⟩
  · intro f hf
    cases f with
    | uniqueViolation => exact absurd rfl hf
    | _ => exact ⟨_, rfl⟩

theorem postTransfer_noKey {min : ℤ} {m : Uuid} {hash : Text} {dto : CreateTransferDto} :
    Replies (program min (.postTransfer m (some []) hash dto)) := ⟨_, rfl⟩

/-- The statements with which the middleware claims a key, or finds its row. -/
def Stmt.claims (m : Uuid) (key : Text) : Stmt → Bool
  | .idempotencyInsert m' key' _ => decide (m' = m ∧ key' = key)
  | .idempotencyGet m' key' => decide (m' = m ∧ key' = key)
  | _ => false

/-! ## Where a request stands -/

/-- A saved response is no server error, and after one the key has been freed. -/
def Node.Settled (n : Node) : Prop :=
  match keyStage n.log with
  | .completed _ _ res => res.status < 500
  | .released _ => ∀ res, Node.response? n = some res → 500 ≤ res.status
  | _ => True

theorem Node.settled_of {n : Node} (hcompleted : ∀ c x r, keyStage n.log ≠ .completed c x r)
    (hreleased : ∀ c, keyStage n.log ≠ .released c) : Node.Settled n := by
  unfold Node.Settled
  split
  · rename_i hstage
    exact absurd hstage (hcompleted _ _ _)
  · rename_i hstage
    exact absurd hstage (hreleased _)
  · trivial

/-- The request has been answered, or has crashed. -/
def Node.Stopped (n : Node) : Prop :=
  n.proc = .crashed ∨ ∃ res, n.proc = .run (.ret (.response res))

theorem Node.Stopped.live {n : Node} (h : Node.Stopped n) : n.live = false := by
  unfold TxStore.Node.live
  rcases h with h | ⟨res, h⟩
  · rw [h]
  · rw [h]
    rfl

/-- What is known of a keyed request from its log: `lost` tells whether its INSERT
or its SELECT on the key may have failed. -/
inductive KeyPlace (m : Uuid) (key hash : Text) (dto : CreateTransferDto) (lost : Prop) :
    Node → Prop
  | claims {c : Prog Reply} (program : Claims m key hash dto c) :
      KeyPlace m key hash dto lost ⟨[], .run c⟩
  | looks {c : Prog Reply} (program : Looks m key c) :
      KeyPlace m key hash dto lost ⟨[.fault .uniqueViolation], .run c⟩
  | handles {n : Node} {c x : Bool} (stage : keyStage n.log = .running c x)
      (closes : n.Closes Persists) : KeyPlace m key hash dto lost n
  | ended {n : Node} (stopped : Node.Stopped n) (stage : ∀ x, keyStage n.log ≠ .running true x)
      (start : keyStage n.log = .start → n.proc = .crashed ∨ lost)
      (settled : Node.Settled n) : KeyPlace m key hash dto lost n

/-- The request holds its key, and has neither saved a response nor freed the key. -/
def Node.holdsKey (n : Node) : Bool :=
  match keyStage n.log with
  | .running true _ => true
  | _ => false

theorem Node.holdsKey_iff {n : Node} :
    Node.holdsKey n = true ↔ ∃ x, keyStage n.log = .running true x := by
  unfold Node.holdsKey
  split
  · rename_i x hstage
    exact ⟨fun _ => ⟨x, hstage⟩, fun _ => rfl⟩
  · rename_i hno
    refine ⟨fun h => absurd h Bool.false_ne_true, ?_⟩
    rintro ⟨x, hx⟩
    exact absurd hx (hno x)

section Place

variable {m : Uuid} {key hash : Text} {lost : Prop} {dto : CreateTransferDto} {n n' : Node}
  {env : Env} {busy : Loc → Bool} {db : Db} {c : Option (Item × List Row)} {f : Fault}

theorem Sql.idempotencyInsert_error (h : (Sql.exec (.idempotencyInsert m key hash) env busy db).out =
    .error f) : f = .uniqueViolation := by
  simp only [Sql.exec, Sql.idempotencyInsert] at h
  split at h
  · cases h
    rfl
  · cases h

theorem Sql.persists_ok {s : Stmt} (hs : s.persists = true) :
    (Sql.exec s env busy db).out ≠ .error f := by
  cases s with
  | idempotencyComplete m key status body =>
    simp only [Sql.exec, Sql.idempotencyComplete]
    split <;> (intro h; cases h)
  | idempotencyRelease m key =>
    simp only [Sql.exec, Sql.idempotencyRelease]
    split <;> (intro h; cases h)
  | _ => cases hs

/-- The stage that the last statement on a key leads to. -/
inductive Saves : Stmt → KeyStage → Prop
  | complete (m : Uuid) (key : Text) (c x : Bool) (status : ℕ) (body : Option ResponseBody) :
      Saves (.idempotencyComplete m key status body) (.completed c x ⟨status, body⟩)
  | release (m : Uuid) (key : Text) (c : Bool) : Saves (.idempotencyRelease m key) (.released c)

/-- A request that runs its handler goes on to do so, or comes to its last statement. -/
theorem KeyedMay.running {log : List Ev} {it : Item} (h : KeyedMay m key hash dto log it)
    {c x : Bool} (hstage : keyStage log = .running c x) :
    ((∀ s r, it ≠ .auto s r) ∧ keyStage (log ++ it.events) = .running c true) ∨
      ∃ s r, it = .auto s r ∧ Saves s (keyStage (log ++ it.events)) := by
  have hact := h.act
  generalize keyStage (log ++ it.events) = after at hact ⊢
  cases hact with
  | insert place | found _ place | missed place =>
    rw [place] at hstage
    cases hstage
  | transfer c' evs place =>
    rw [place] at hstage
    cases hstage
    exact .inl ⟨by simp, rfl⟩
  | complete => exact .inr ⟨_, _, rfl, .complete ..⟩
  | release => exact .inr ⟨_, _, rfl, .release ..⟩

theorem Saves.ended {s : Stmt} {reply : Reply} (h : Saves s (keyStage n.log))
    (hs : Persists s reply) (hret : n.proc = .run (.ret reply)) : KeyPlace m key hash dto lost n := by
  obtain ⟨m', key', res, rfl, hs⟩ := hs
  have hstopped : Node.Stopped n := .inr ⟨res, hret⟩
  generalize hstage : keyStage n.log = st at h
  cases h with
  | complete m₁ key₁ c x status body =>
    refine .ended hstopped (by simp [hstage]) (by simp [hstage]) ?_
    rw [Node.Settled, hstage]
    rcases hs with ⟨-, hs⟩ | ⟨hstatus, hs⟩
    · cases hs
    · cases hs
      exact hstatus
  | release m₁ key₁ c =>
    refine .ended hstopped (by simp [hstage]) (by simp [hstage]) ?_
    rw [Node.Settled, hstage]
    intro res' hres
    rw [Node.response?_eq_some hres] at hret
    cases hret
    rcases hs with ⟨hstatus, -⟩ | ⟨-, hs⟩
    · exact hstatus
    · cases hs

/-- What a step does to the stage of a request. -/
theorem Node.step_stage (hstep : n.step engine env busy db = some (n', c)) :
    (∃ it ws, c = some (it, ws) ∧ n'.log = n.log ++ it.events) ∨
      (c = none ∧ keyStage n'.log = keyStage n.log) := by
  cases Node.moves hstep with
  | query | call | commits => exact .inl ⟨_, _, rfl, rfl⟩
  | opens | stmt | throws => exact .inr ⟨rfl, rfl⟩
  | queryFails | stmtFails => exact .inr ⟨rfl, keyStage_fault _ _⟩

theorem KeyPlace.step (h : KeyPlace m key hash dto lost n)
    (hstep : n.step engine env busy db = some (n', c))
    (hmay : ∀ it ws, c = some (it, ws) → KeyedMay m key hash dto n.log it) :
    KeyPlace m key hash dto lost n' := by
  cases h with
  | claims program =>
    obtain ⟨k, rfl, hhandles, hlooks, -⟩ := program
    cases Node.moves hstep with
    | query => exact .handles (c := true) (x := false) rfl hhandles
    | @queryFails _ _ _ f hout =>
      have hout : (Sql.exec (.idempotencyInsert m key hash) env busy db).out = .error f := hout
      obtain rfl : f = .uniqueViolation := Sql.idempotencyInsert_error hout
      exact .looks hlooks
  | looks program =>
    obtain ⟨k, rfl, hhandles, hfound, -⟩ := program
    cases Node.moves hstep with
    | @query _ _ _ r _ _ hout =>
      cases r with
      | none => exact .handles (c := false) (x := false) rfl hhandles
      | some row =>
        have hstage : keyStage ([.fault .uniqueViolation,
            .stmt (Stmt.idempotencyGet m key) (some row)] : List Ev) = .answered row := rfl
        refine .ended ?_ ?_ ?_ (Node.settled_of ?_ ?_)
        · exact .inr ((hfound row).imp fun res hres => congrArg _ hres)
        all_goals simp [hstage]
    | queryFails hout => cases hout
  | handles stage closes =>
    rcases Node.step_stage hstep with ⟨it, ws, rfl, hlog⟩ | ⟨rfl, hlog⟩
    · have hact := (hmay it ws rfl).running stage
      rw [← hlog] at hact
      rcases closes.step hstep with ⟨hcloses, hno⟩ | ⟨s, k, reply, -, hs, hret, hdone⟩
      · rcases hact with ⟨-, hstage⟩ | ⟨s, r, rfl, -⟩
        · exact .handles hstage hcloses
        · exact absurd rfl (hno s r ws)
      · rcases hdone with ⟨r, ws', hdone⟩ | ⟨f, hout⟩
        · cases hdone
          rcases hact with ⟨hno, -⟩ | ⟨s', r', hit, hsaves⟩
          · exact absurd rfl (hno s r)
          · cases hit
            exact hsaves.ended hs hret
        · exact absurd hout (Sql.persists_ok hs.persists)
    · rcases closes.step hstep with ⟨hcloses, -⟩ | ⟨s, k, reply, -, hs, -, hdone⟩
      · exact .handles (hlog.trans stage) hcloses
      · rcases hdone with ⟨r, ws, hdone⟩ | ⟨f, hout⟩
        · cases hdone
        · exact absurd hout (Sql.persists_ok hs.persists)
  | ended stopped stage start settled =>
    have hlive := TxStore.Node.live_of_step hstep
    rw [stopped.live] at hlive
    cases hlive

theorem KeyPlace.fail (h : KeyPlace m key hash dto lost n) (hfail : n.fail engine f = some n')
    (hkept : Node.holdsKey n = false ∨ (Node.query? n).any Stmt.persists = false)
    (hclaim : lost ∨ (Node.query? n).any (Stmt.claims m key) = false) :
    KeyPlace m key hash dto lost n' := by
  have hlost : ∀ log : List Ev, keyStage log = .start → n'.log = log → Node.Stopped n' → lost →
      KeyPlace m key hash dto lost n' := by
    rintro _ hstage rfl hstopped hlost
    exact .ended hstopped (by simp [hstage]) (fun _ => .inr hlost)
      (Node.settled_of (by simp [hstage]) (by simp [hstage]))
  cases h with
  | claims program =>
    obtain ⟨k, rfl, -, hlooks, hfailed, -⟩ := program
    obtain hclaim | hno := hclaim
    · cases Node.fails hfail with
      | query =>
        by_cases hf : f = .uniqueViolation
        · subst hf
          exact .looks hlooks
        · exact hlost [.fault f] rfl rfl
            (.inr ((hfailed f hf).imp fun res hres => congrArg _ hres)) hclaim
    · simp [Node.query?, Stmt.claims] at hno
  | looks program =>
    obtain ⟨k, rfl, -, -, hfailed⟩ := program
    obtain hclaim | hno := hclaim
    · cases Node.fails hfail with
      | query =>
        exact hlost [.fault .uniqueViolation, .fault f] rfl rfl
          (.inr ((hfailed _).imp fun res hres => congrArg _ hres)) hclaim
    · simp [Node.query?, Stmt.claims] at hno
  | @handles _ c x stage closes =>
    have hlog : keyStage n'.log = .running c x := by
      cases Node.fails hfail <;> exact (keyStage_fault _ _).trans stage
    rcases closes.fail hfail with hcloses | ⟨s, k, reply, hproc, hs, hret⟩
    · exact .handles hlog hcloses
    · cases c with
      | true =>
        rcases hkept with hno | hno
        · rw [Node.holdsKey_iff.mpr ⟨x, stage⟩] at hno
          cases hno
        · rw [Node.query?, hproc, Option.any_some, hs.persists] at hno
          cases hno
      | false =>
        obtain ⟨-, -, res, rfl, -⟩ := hs
        exact .ended (.inr ⟨res, hret⟩) (by simp [hlog]) (by simp [hlog])
          (Node.settled_of (by simp [hlog]) (by simp [hlog]))
  | ended stopped stage start settled =>
    have hlive := TxStore.Node.live_of_fail hfail
    rw [stopped.live] at hlive
    cases hlive

/-- A response that has been saved is no server error. -/
theorem KeyPlace.saved (h : KeyPlace m key hash dto lost n) {c x : Bool} {res : Response}
    (hstage : keyStage n.log = .completed c x res) : res.status < 500 := by
  cases h with
  | claims | looks => cases hstage
  | handles stage =>
    rw [stage] at hstage
    cases hstage
  | ended stopped stage start settled =>
    rw [Node.Settled, hstage] at settled
    exact settled

theorem KeyPlace.crash (h : KeyPlace m key hash dto lost n) (hkept : Node.holdsKey n = false) :
    KeyPlace m key hash dto lost { n with proc := .crashed } := by
  refine .ended (.inl rfl) ?_ (fun _ => .inl rfl) ?_
  · intro x hx
    rw [Node.holdsKey_iff.mpr ⟨x, show keyStage n.log = _ from hx⟩] at hkept
    cases hkept
  · unfold Node.Settled
    split
    · rename_i hstage
      exact h.saved hstage
    · intro res hres
      cases hres
    · trivial

end Place

/-! ## Every request of a run -/

namespace Sys

/-- No request crashes while it holds its key, and its last statement on the key
does not fail. -/
def keysKept (s : Sys) : Step → Bool
  | .crash i => s.nodes[i]?.all (fun n => !Node.holdsKey n)
  | .fault i _ => s.nodes[i]?.all (fun n => !(Node.holdsKey n && (Node.query? n).any Stmt.persists))
  | _ => true

/-- The statements with which requests from the `N`-th on claim the key do not fail. -/
def claimsKept (m : Uuid) (key : Text) (N : ℕ) (s : Sys) : Step → Bool
  | .fault i _ =>
    decide (i < N) || s.nodes[i]?.all (fun n => !(Node.query? n).any (Stmt.claims m key))
  | _ => true

end Sys

section

variable {min : ℤ} {ls : List Step} {s : Sys}

/-- What a step commits is what the job may. -/
theorem RunBy.may {ok : Sys → Step → Sys → Prop} (h : RunBy min ok ls s) {i u : ℕ} {j : Job}
    {n n' : Node} {it : Item} {ws : List Row} (hj : (jobs ls)[i]? = some j)
    (hn : s.nodes[i]? = some n)
    (hstep : n.step engine ⟨s.now, u⟩ (s.busy i) s.db = some (n', some (it, ws))) :
    j.May n.log it := by
  have hkeeps := Run.keeps (program_keeps min) h
  rw [List.forall₂_iff_get] at hkeeps
  obtain ⟨hi, hji⟩ := List.getElem?_eq_some_iff.mp hj
  obtain ⟨hi', hni⟩ := List.getElem?_eq_some_iff.mp hn
  have hnode := hkeeps.2 i hi hi'
  simp only [List.get_eq_getElem, hji, hni] at hnode
  exact (hnode.step hstep).2 it ws rfl

/-- Every request with a key is where its log says. -/
theorem RunBy.place {ok : Sys → Step → Sys → Prop} {m : Uuid} {key : Text} (lost : ℕ → Prop)
    (hkept : ∀ s l s', ok s l s' → s.keysKept l = true)
    (hclaim : ∀ s i f s' n, ok s (.fault i f) s' → s.nodes[i]? = some n →
      lost i ∨ (Node.query? n).any (Stmt.claims m key) = false)
    (hkey : ∀ i, key = [] → lost i) (h : RunBy min ok ls s) {i : ℕ} {hash : Text}
    {dto : CreateTransferDto} {n : Node}
    (hj : (jobs ls)[i]? = some (.postTransfer m (some key) hash dto)) (hn : s.nodes[i]? = some n) :
    KeyPlace m key hash dto (lost i) n := by
  refine TxStore.Run.each (F := fun i j n => ∀ hash dto, j = .postTransfer m (some key) hash dto →
    KeyPlace m key hash dto (lost i) n) ?_ ?_ h hj hn hash dto rfl
  · rintro i j hash dto rfl
    by_cases hnil : key = []
    · subst hnil
      exact .ended (.inr (postTransfer_noKey.imp fun res hres => congrArg _ hres)) (by simp)
        (fun _ => .inr (hkey i rfl)) (Node.settled_of (by simp) (by simp))
    · exact .claims (postTransfer_claims hnil)
  · intro ls s l s' i j n n' hrun hstep hok hj hn ih hmoved hash dto hjob
    have hplace := ih hash dto hjob
    subst hjob
    have hkept := hkept _ _ _ hok
    rcases hmoved with ⟨u, c, rfl, hnode, -⟩ | ⟨f, rfl, hfail⟩ | ⟨rfl, rfl⟩
    · have hmay : ∀ it ws, c = some (it, ws) → KeyedMay m key hash dto n.log it := by
        rintro it ws rfl
        obtain ⟨k, hk, hmay⟩ := RunBy.may hrun hj hn hnode
        cases hk
        exact hmay
      exact hplace.step hnode hmay
    · refine hplace.fail hfail ?_ (hclaim _ _ _ _ _ hok hn)
      simpa [Sys.keysKept, hn] using hkept
    · refine hplace.crash ?_
      simpa [Sys.keysKept, hn] using hkept

end

/-! ## A row in progress -/

theorem keyStage_set {procs : List (Bool × List Ev)} {i k : ℕ} {p q : Bool × List Ev}
    {live : Bool} {log : List Ev} (hk : procs[k]? = some p) (hsame : keyStage log = keyStage p.2)
    (hq : procs[i]? = some q) :
    ∃ q', (procs.set k (live, log))[i]? = some q' ∧ keyStage q'.2 = keyStage q.2 := by
  by_cases hik : k = i
  · subst hik
    rw [hk] at hq
    cases hq
    exact ⟨(live, log), List.getElem?_set_self (List.getElem?_eq_some_iff.mp hk).1, hsame⟩
  · exact ⟨q, by rw [List.getElem?_set_ne hik, hq], rfl⟩

/-- A row in progress is that of a request that holds its key. -/
theorem JReach.in_progress {min : ℤ} {js : List Job} {a : Abs} {m : Uuid} {key : Text}
    (h : JReach min (fun _ _ => True) js a) {row : IdempotencyRow}
    (hrow : Db.idempotency a.db m key = some row) (hstatus : row.status = .inProgress) :
    ∃ (i : ℕ) (hash : Text) (dto : CreateTransferDto) (q : Bool × List Ev) (x : Bool),
      js[i]? = some (.postTransfer m (some key) hash dto) ∧ a.procs[i]? = some q ∧
        keyStage q.2 = .running true x := by
  induction h generalizing row with
  | init => simp [TxStore.Abs.init, Db.idempotency] at hrow
  | @step js a js' a' hr hs _ ih =>
    cases hs with
    | start j live =>
      obtain ⟨i, hash, dto, q, x, hj, hq, hstage⟩ := ih hrow hstatus
      refine ⟨i, hash, dto, q, x, ?_, ?_, hstage⟩
      · rw [List.getElem?_append_left (List.getElem?_eq_some_iff.mp hj).1, hj]
      · rw [List.getElem?_append_left (List.getElem?_eq_some_iff.mp hq).1, hq]
    | tick n => exact ih hrow hstatus
    | fault k log f live hk =>
      obtain ⟨i, hash, dto, q, x, hj, hq, hstage⟩ := ih hrow hstatus
      obtain ⟨q', hq', hsame⟩ := keyStage_set hk (keyStage_fault log f) hq
      exact ⟨i, hash, dto, q', x, hj, hq', hsame.trans hstage⟩
    | quiet k was log live hk _ =>
      obtain ⟨i, hash, dto, q, x, hj, hq, hstage⟩ := ih hrow hstatus
      obtain ⟨q', hq', hsame⟩ := keyStage_set hk (Eq.refl (keyStage log)) hq
      exact ⟨i, hash, dto, q', x, hj, hq', hsame.trans hstage⟩
    | commit k j log it p live hj' hk _ hg hmay =>
      have hcommit : Db.idempotency (a.db.install p.writes) m key =
          Item.leaves m key it (Db.idempotency a.db m key) := Commit.idempotency hg m key
      rw [hcommit] at hrow
      -- the row is that of another request, which has not moved
      have hother : Db.idempotency a.db m key = some row →
          (∀ c x, keyStage log = .running c x → keyStage (log ++ it.events) = .running c true) →
          ∃ (i : ℕ) (hash : Text) (dto : CreateTransferDto) (q : Bool × List Ev) (x : Bool),
            js[i]? = some (.postTransfer m (some key) hash dto) ∧
            (a.procs.set k (live, log ++ it.events))[i]? = some q ∧
            keyStage q.2 = .running true x := by
        intro hrow hrunning
        obtain ⟨i, hash, dto, q, x, hj, hq, hstage⟩ := ih hrow hstatus
        by_cases hik : k = i
        · subst hik
          rw [hk] at hq
          cases hq
          exact ⟨k, hash, dto, _, true, hj,
            List.getElem?_set_self (List.getElem?_eq_some_iff.mp hk).1, hrunning _ _ hstage⟩
        · exact ⟨i, hash, dto, q, x, hj, by rw [List.getElem?_set_ne hik, hq], hstage⟩
      cases hc : j.carries m key with
      | false =>
        rw [hmay.leaves hc] at hrow
        obtain ⟨i, hash, dto, q, x, hj, hq, hstage⟩ := ih hrow hstatus
        have hik : k ≠ i := by
          rintro rfl
          rw [hj'] at hj
          cases hj
          simp [Job.carries] at hc
        exact ⟨i, hash, dto, q, x, hj, by rw [List.getElem?_set_ne hik, hq], hstage⟩
      | true =>
        obtain ⟨hash, dto, rfl⟩ := Job.carries_iff.mp hc
        obtain ⟨_, hkey, hkeyed⟩ := hmay
        cases hkey
        have hact := hkeyed.act
        generalize hafter : keyStage (log ++ it.events) = after at hact
        cases hact with
        | insert place =>
          exact ⟨k, hash, dto, _, false, hj',
            List.getElem?_set_self (List.getElem?_eq_some_iff.mp hk).1, hafter⟩
        | found row place | missed place =>
          refine hother hrow ?_
          intro c x hstage
          rw [place] at hstage
          cases hstage
        | transfer c evs place =>
          refine hother hrow ?_
          intro c' x hstage
          rw [place] at hstage
          cases hstage
          exact hafter
        | complete c x status body place handled =>
          simp only [Item.leaves, and_self, if_true, Option.map_eq_some_iff] at hrow
          obtain ⟨old, -, rfl⟩ := hrow
          cases hstatus
        | release c place => simp [Item.leaves] at hrow

/-! ## What becomes of a claim -/

/-- The process has inserted the row of a key. -/
def Node.claimed (n : Node) : Bool :=
  n.log.any (fun ev => match ev with
    | .stmt (.idempotencyInsert _ _ _) _ => true
    | _ => false)

section Claim

variable {min : ℤ} {ls : List Step} {s : Sys} {m : Uuid} {key hash : Text}
  {dto : CreateTransferDto} {i : ℕ} {n : Node} {res : Response}

/-- Every claim is seen through to its end, and nobody reads the row of a key in vain. -/
abbrev Kept (s : Sys) (l : Step) : Prop := s.keysKept l = true ∧ s.keyStillThere l = true

/-- Whoever has claimed its key has gone on to run its handler. -/
theorem claimed_stage {P : List Job → Abs → Prop} (h : JReach min P (jobs ls) s.abs)
    (hj : (jobs ls)[i]? = some (.postTransfer m (some key) hash dto)) (hn : s.nodes[i]? = some n)
    (hclaimed : Node.claimed n = true) :
    keyStage n.log ≠ .start ∧ ∀ row, keyStage n.log ≠ .answered row := by
  refine TxStore.JReach.each (F := fun j log => j.carries m key = true →
    Node.claimed ⟨log, .crashed⟩ = true → keyStage log ≠ .start ∧
      ∀ row, keyStage log ≠ .answered row) ?_ ?_ ?_ h i _ _ hj (abs_proc hn)
    (Job.carries_iff.mpr ⟨_, _, rfl⟩) hclaimed
  · exact fun _ _ hno => absurd hno Bool.false_ne_true
  · intro j log f hF hc hlog
    rw [keyStage_fault]
    refine hF hc ?_
    simpa [Node.claimed] using hlog
  · intro js a k j log it p now d _ _ _ hmay hF hc hlog
    have hold : Node.claimed ⟨log, .crashed⟩ = true → keyStage log ≠ .start := fun h => (hF hc h).1
    obtain ⟨hash, dto, rfl⟩ := Job.carries_iff.mp hc
    obtain ⟨_, hkey, hkeyed⟩ := hmay
    cases hkey
    have hact := hkeyed.act
    generalize keyStage (log ++ it.events) = after at hact
    cases hact with
    | found row place | missed place =>
      refine absurd place (hold ?_)
      simpa [Node.claimed, TxStore.Item.events] using hlog
    | insert | transfer | complete | release => simp

/-- A claim whose request has been answered has been seen through to its end. -/
theorem claimed_answered (h : RunBy min (fun s l _ => Kept s l) ls s)
    (hj : (jobs ls)[i]? = some (.postTransfer m (some key) hash dto)) (hn : s.nodes[i]? = some n)
    (hclaimed : Node.claimed n = true) (hres : Node.response? n = some res) :
    (∃ x, keyStage n.log = .completed true x res ∧ res.status < 500) ∨
      (keyStage n.log = .released true ∧ 500 ≤ res.status) := by
  have hreach := keyed_reach (h.imp fun _ _ _ hok => hok.2)
  have hstage := claimed_stage hreach hj hn hclaimed
  have hown := JReach.claimed hreach hj (abs_proc hn) (Job.carries_iff.mpr ⟨_, _, rfl⟩)
  have hanswered := RunBy.answered h hj hn hres
  have hdead : n.live = false := Node.Stopped.live (.inr ⟨res, Node.response?_eq_some hres⟩)
  cases RunBy.place (fun _ => True) (fun _ _ _ hok => hok.1)
      (fun _ _ _ _ _ _ _ => .inl trivial) (fun _ _ => trivial) h hj hn with
  | claims | looks => exact absurd rfl hstage.1
  | handles _ closes =>
    rw [closes.live] at hdead
    cases hdead
  | ended _ hrunning _ hsettled =>
    unfold Answered at hanswered
    unfold Node.Settled at hsettled
    generalize keyStage n.log = st at *
    cases st with
    | start => exact absurd rfl hstage.1
    | answered row => exact absurd rfl (hstage.2 row)
    | running c x =>
      obtain rfl : c = true := hown
      exact absurd rfl (hrunning x)
    | completed c x r =>
      obtain rfl : c = true := hown
      obtain ⟨rfl, -⟩ := hanswered
      exact .inl ⟨x, rfl, hsettled⟩
    | released c =>
      obtain rfl : c = true := hown
      exact .inr ⟨rfl, hsettled res hres⟩

/-- What the later requests with a key have done: nothing yet, or they have found the
response `res` to the body of their own. -/
def KeyStage.Replays (hash : Text) (res : Response) : KeyStage → Prop
  | .start => True
  | .answered row => row.requestHash = hash ∧ row.status = .completed ∧
    res = ⟨row.responseStatus.getD 200, row.responseBody⟩
  | _ => False

/-- Once a response is saved, the requests that come later only find it. -/
theorem later_replays {ls' : List Step} {s' : Sys} {ok : Sys → Step → Sys → Prop}
    (hok : ∀ s l s', ok s l s' → s.keyStillThere l = true)
    (h : RunBy min (fun s l _ => Kept s l) ls s)
    (hj : (jobs ls)[i]? = some (.postTransfer m (some key) hash dto)) (hn : s.nodes[i]? = some n)
    {x : Bool} (hstage : keyStage n.log = .completed true x res)
    (h' : RunBy min ok (ls ++ ls') s') :
    ((jobs (ls ++ ls'))[i]? = some (.postTransfer m (some key) hash dto) ∧
      ∃ q, s'.abs.procs[i]? = some q ∧ keyStage q.2 = .completed true x res) ∧
    ∀ (k : ℕ) (j : Job) (q : Bool × List Ev), (jobs (ls ++ ls'))[k]? = some j →
      s'.abs.procs[k]? = some q → s.nodes.length ≤ k → j.carries m key = true →
      (keyStage q.2).Replays hash res := by
  refine TxStore.Run.after (P := fun ls' s' =>
    ((jobs (ls ++ ls'))[i]? = some (.postTransfer m (some key) hash dto) ∧
      ∃ q, s'.abs.procs[i]? = some q ∧ keyStage q.2 = .completed true x res) ∧
    ∀ (k : ℕ) (j : Job) (q : Bool × List Ev), (jobs (ls ++ ls'))[k]? = some j →
      s'.abs.procs[k]? = some q → s.nodes.length ≤ k → j.carries m key = true →
      (keyStage q.2).Replays hash res) h ?_ ?_ h'
  · refine ⟨⟨by rw [List.append_nil, hj], _, abs_proc hn, hstage⟩, ?_⟩
    intro k j q hk _ hlater
    rw [List.append_nil] at hk
    have hlt := (List.getElem?_eq_some_iff.mp hk).1
    rw [h.length_jobs] at hlt
    omega
  · rintro ls' s₁ l s₂ hrun hstep hl ⟨⟨hj₁, q₁, hq₁, hstage₁⟩, hlater⟩
    have hreach := keyed_reach (hrun.imp hok)
    have hnomiss := noMiss_of_keyStillThere ((hrun.imp hok).step hstep (hok _ _ _ hl))
    have hjstep := run_step_refines hrun hstep
    rw [← List.append_assoc, jobs_append]
    refine ⟨JStep.completed hjstep hreach.sized.1 hj₁ hq₁ (Job.carries_iff.mpr ⟨_, _, rfl⟩) hstage₁,
      ?_⟩
    refine TxStore.JStep.each (F := fun k j log _ => s.nodes.length ≤ k → j.carries m key = true →
      (keyStage log).Replays hash res) hjstep hreach.sized.1 ?_ ?_ ?_ ?_ hlater
    · exact fun _ _ _ => trivial
    · intro k j log f hF
      rw [keyStage_fault]
      exact hF
    · intro k j log it p hk _ hg hmay hlast _ hF hle hc
      have hplace := hF hle hc
      obtain ⟨row, hrow, hhash, -, hmatch⟩ :=
        JReach.held_row hreach hj₁ hq₁ (by rw [hstage₁]; rfl)
      rw [hstage₁] at hmatch
      obtain ⟨hash', dto', rfl⟩ := Job.carries_iff.mp hc
      obtain ⟨_, hkey, hkeyed⟩ := hmay
      cases hkey
      have hact := hkeyed.act
      generalize keyStage (log ++ it.events) = after at hact ⊢
      cases hact with
      | insert =>
        rw [Commit.insert_free hg] at hrow
        cases hrow
      | found row' =>
        obtain rfl : row' = row := Option.some.inj ((Commit.get_found hg).trans hrow)
        exact ⟨hhash, hmatch.1, hmatch.2.2⟩
      | missed => exact absurd (by simp [hlast]) (hnomiss k m key)
      | transfer _ _ place | complete _ _ _ _ place | release _ place =>
        rw [place] at hplace
        exact hplace
    · exact fun _ _ _ _ _ _ _ _ _ hF => hF

/-- Without a key the request is refused at once. -/
theorem noKey_quiet {ok : Sys → Step → Sys → Prop} (h : RunBy min ok ls s)
    (hj : (jobs ls)[i]? = some (.postTransfer m (some []) hash dto)) (hn : s.nodes[i]? = some n) :
    n.log = [] := by
  have hquiet : n.log = [] ∧ n.live = false := by
    refine TxStore.Run.each (F := fun _ j n => j = .postTransfer m (some []) hash dto →
      n.log = [] ∧ n.live = false) ?_ ?_ h hj hn rfl
    · rintro i _ rfl
      exact ⟨rfl, rfl⟩
    · rintro ls s l s' i j n n' - - - - - ih hmoved hjob
      obtain ⟨hlog, hdead⟩ := ih hjob
      rcases hmoved with ⟨u, c, -, hnode, -⟩ | ⟨f, -, hfail⟩ | ⟨-, rfl⟩
      · rw [TxStore.Node.live_of_step hnode] at hdead
        cases hdead
      · rw [TxStore.Node.live_of_fail hfail] at hdead
        cases hdead
      · exact ⟨hlog, rfl⟩
  exact hquiet.1

/-- A row is completed once the requests with its key have ended, or crashed. -/
theorem completed_at_rest (h : RunBy min (fun s l _ => s.keysKept l = true) ls s)
    (hrest : ∀ (i : ℕ) (j : Job) (n : Node), (jobs ls)[i]? = some j → j.carries m key = true →
      s.nodes[i]? = some n → n.live = false) {row : IdempotencyRow}
    (hrow : Db.idempotency s.db m key = some row) : row.status = .completed := by
  cases hstatus : row.status with
  | completed => rfl
  | inProgress =>
    have hreach : JReach min (fun _ _ => True) (jobs ls) s.abs :=
      run_refines (fun _ _ _ _ _ _ _ => trivial) h
    obtain ⟨i, hash, dto, q, x, hj, hq, hstage⟩ := hreach.in_progress hrow hstatus
    obtain ⟨n, hn, rfl⟩ := of_abs_proc hq
    have hdead := hrest i _ n hj (Job.carries_iff.mpr ⟨_, _, rfl⟩) hn
    cases RunBy.place (fun _ => True) (fun _ _ _ hok => hok)
        (fun _ _ _ _ _ _ _ => .inl trivial) (fun _ _ => trivial) h hj hn with
    | claims | looks => cases hstage
    | handles _ closes =>
      rw [closes.live] at hdead
      cases hdead
    | ended _ hrunning => exact absurd hstage (hrunning x)

theorem key_ne_nil {ok : Sys → Step → Sys → Prop} (h : RunBy min ok ls s)
    (hj : (jobs ls)[i]? = some (.postTransfer m (some key) hash dto)) (hn : s.nodes[i]? = some n)
    (hclaimed : Node.claimed n = true) : key ≠ [] := by
  rintro rfl
  rw [Node.claimed, noKey_quiet h hj hn] at hclaimed
  cases hclaimed

/-- A later request comes to the row of its key. -/
theorem later_place {N : ℕ} (hkey : key ≠ [])
    (h : RunBy min (fun s l _ => Kept s l ∧ s.claimsKept m key N l = true) ls s) (hlater : N ≤ i)
    (hj : (jobs ls)[i]? = some (.postTransfer m (some key) hash dto)) (hn : s.nodes[i]? = some n) :
    KeyPlace m key hash dto False n := by
  have hplace : KeyPlace m key hash dto (i < N ∨ key = []) n := by
    refine RunBy.place (fun i => i < N ∨ key = []) (fun _ _ _ hok => hok.1.1) ?_
      (fun _ => .inr) h hj hn
    intro s₁ k f s₂ n₁ hok hn₁
    have hkept := hok.2
    simp only [Sys.claimsKept, hn₁, Option.all_some, Bool.or_eq_true, decide_eq_true_eq,
      Bool.not_eq_true'] at hkept
    exact hkept.imp_left .inl
  have hnot : (i < N ∨ key = []) = False := by simp [hkey, hlater]
  rwa [hnot] at hplace

/-- A later request, when it has stopped, has been answered with the saved response. -/
theorem later_answered {ls' : List Step} {s' : Sys}
    (h : RunBy min (fun s l _ => Kept s l) ls s)
    (hj : (jobs ls)[i]? = some (.postTransfer m (some key) hash dto)) (hn : s.nodes[i]? = some n)
    (hclaimed : Node.claimed n = true) {x : Bool}
    (hstage : keyStage n.log = .completed true x res)
    (h' : RunBy min (fun s₁ l _ => Kept s₁ l ∧ s₁.claimsKept m key s.nodes.length l = true)
      (ls ++ ls') s') {k : ℕ} {dto' : CreateTransferDto} {n' : Node} (hlater : s.nodes.length ≤ k)
    (hk : (jobs (ls ++ ls'))[k]? = some (.postTransfer m (some key) hash dto'))
    (hn' : s'.nodes[k]? = some n') (hdead : n'.live = false) :
    n'.proc = .crashed ∨ Node.response? n' = some res := by
  have hreplays := (later_replays (fun _ _ _ hok => hok.1.2) h hj hn hstage h').2 k _ _ hk
    (abs_proc hn') hlater (Job.carries_iff.mpr ⟨_, _, rfl⟩)
  have hplace := later_place (key_ne_nil h hj hn hclaimed) h' hlater hk hn'
  cases hplace with
  | claims program =>
    obtain ⟨_, rfl, -⟩ := program
    cases hdead
  | looks program =>
    obtain ⟨_, rfl, -⟩ := program
    cases hdead
  | handles _ closes =>
    rw [closes.live] at hdead
    cases hdead
  | ended stopped _ start _ =>
    rcases stopped with hcrashed | ⟨res', hret⟩
    · exact .inl hcrashed
    have hres' : Node.response? n' = some res' := by rw [Node.response?, hret]
    have hanswered := RunBy.answered h' hk hn' hres'
    unfold Answered at hanswered
    generalize keyStage n'.log = st at *
    cases st with
    | start =>
      rcases start rfl with hcrashed | hlost
      · exact .inl hcrashed
      · exact hlost.elim
    | answered row =>
      obtain ⟨hhash, hstatus, rfl⟩ := hreplays
      right
      rw [hres', (if_pos ⟨hhash, hstatus⟩).mp hanswered]
    | running | completed | released => exact hreplays.elim

end Claim

/-! ## No orphans -/

/-- While every claim is seen through to its end, the row of a key is gone or
completed whenever no request with the key is running. While nobody reads the
row of a key in vain either, a request with the fingerprint of a claim that was
answered with less than 500 and no failure of its own is answered the same. -/
theorem keys_settled {min : ℤ} :
    (∀ (ls : List Step) (s : Sys) (m : Uuid) (key : Text),
      RunBy min (fun s l _ => s.keysKept l = true) ls s →
      (∀ (i : ℕ) (j : Job) (n : Node), (jobs ls)[i]? = some j → j.carries m key = true →
        s.nodes[i]? = some n → n.live = false) →
      ∀ row, Db.idempotency s.db m key = some row → row.status = .completed) ∧
    ∀ (ls ls' : List Step) (s s' : Sys) (m : Uuid) (key hash : Text) (i : ℕ)
      (dto : CreateTransferDto) (n : Node) (res : Response),
      RunBy min (fun s l _ => Kept s l) ls s →
      (jobs ls)[i]? = some (.postTransfer m (some key) hash dto) → s.nodes[i]? = some n →
      Node.claimed n = true → Node.response? n = some res → res.status < 500 →
      RunBy min (fun s₁ l _ => Kept s₁ l ∧ s₁.claimsKept m key s.nodes.length l = true)
        (ls ++ ls') s' →
      ∀ (k : ℕ) (dto' : CreateTransferDto) (n' : Node), s.nodes.length ≤ k →
        (jobs (ls ++ ls'))[k]? = some (.postTransfer m (some key) hash dto') →
        s'.nodes[k]? = some n' → n'.live = false →
        n'.proc = .crashed ∨ Node.response? n' = some res := by
  refine ⟨fun ls s m key h hrest row hrow => completed_at_rest h hrest hrow, ?_⟩
  intro ls ls' s s' m key hash i dto n res h hj hn hclaimed hres hstatus h' k dto' n' hlater hk hn'
    hdead
  rcases claimed_answered h hj hn hclaimed hres with ⟨x, hstage, -⟩ | ⟨-, hserver⟩
  · exact later_answered h hj hn hclaimed hstage h' hlater hk hn' hdead
  · omega

/-- A transfer under a key, without its retry. -/
def keyedTransfer : List Step :=
  paidHundred ++
    .start (.postTransfer 1 (some "k".toList) "body".toList transferFifty) :: drive 4 11 20

def retry : List Step :=
  .start (.postTransfer 1 (some "k".toList) "body".toList transferFifty) :: drive 5 2 40

theorem keys_settled_retried : ∃ s s' : Sys,
    (∃ row, Db.idempotency s.db 1 "k".toList = some row ∧ row.status = .completed) ∧
      ∃ n n' : Node, s.nodes[4]? = some n ∧ s'.nodes[5]? = some n' ∧
        Node.response? n' = Node.response? n := by
  have hfirst : (runWhile 10 (fun s l _ => s.keysKept l && s.keyStillThere l) keyedTransfer).any
      (fun s : Sys => s.nodes.all (fun n => !n.live) && decide (s.nodes.length = 5) &&
        (Db.idempotency s.db 1 "k".toList).isSome && s.nodes[4]?.any (fun n =>
          Node.claimed n && (Node.response? n).any (fun res => decide (res.status < 500)))) =
      true := by
    decide +kernel
  have hsecond : (runWhile 10 (fun s l _ => s.keysKept l && s.keyStillThere l &&
      s.claimsKept 1 "k".toList 5 l) (keyedTransfer ++ retry)).any (fun s : Sys =>
        s.nodes[5]?.any (fun n => !n.live && (Node.response? n).isSome)) = true := by
    decide +kernel
  obtain ⟨s, hs, htest⟩ := exists_runWhile hfirst
  obtain ⟨s', hs', htest'⟩ := exists_runWhile hsecond
  simp only [Bool.and_eq_true, Option.any_eq_true, decide_eq_true_eq, List.all_eq_true,
    Bool.not_eq_true'] at htest htest'
  obtain ⟨⟨⟨hrest, hlen⟩, hrow⟩, n, hn, hclaimed, res, hres, hstatus⟩ := htest
  obtain ⟨n', hn', hdead, hanswered⟩ := htest'
  obtain ⟨row, hrow⟩ := Option.isSome_iff_exists.mp hrow
  have hkept : RunBy 10 (fun s l _ => Kept s l) keyedTransfer s :=
    hs.imp fun _ _ _ hok => (Bool.and_eq_true _ _).mp hok
  refine ⟨s, s', ⟨row, hrow, ?_⟩, n, n', hn, hn', ?_⟩
  · exact keys_settled.1 keyedTransfer s 1 "k".toList (hkept.imp fun _ _ _ hok => hok.1)
      (fun i j n _ _ hn => hrest n (List.mem_of_getElem? hn)) row hrow
  · have hlater : RunBy 10 (fun s₁ l _ => Kept s₁ l ∧
        s₁.claimsKept 1 "k".toList s.nodes.length l = true) (keyedTransfer ++ retry) s' := by
      rw [hlen]
      exact hs'.imp fun _ _ _ hok => by simpa using hok
    rcases keys_settled.2 keyedTransfer retry s s' 1 "k".toList "body".toList 4 transferFifty n res
      hkept rfl hn hclaimed hres hstatus hlater 5 transferFifty n' hlen.le rfl hn' hdead with
      hcrashed | hsame
    · rw [Node.response?, hcrashed] at hanswered
      cases hanswered
    · rw [hsame, hres]

/-- The request crashes once it has claimed its key. -/
def crashedRequest : List Step :=
  paidHundred ++ [.start (.postTransfer 1 (some "k".toList) "body".toList transferFifty),
    .run 4 20, .crash 4]

/-- The transfer is committed, but the response is not saved. -/
def unsavedResponse : List Step :=
  paidHundred ++
    .start (.postTransfer 1 (some "k".toList) "body".toList transferFifty) :: drive 4 10 20 ++
    [.fault 4 (.connection "Connection terminated unexpectedly")]

/-- The row stays in progress with no request running, and a retry is refused: after a
crash, and after a response with 201 that could not be saved. -/
theorem orphaned_key :
    (∃ s : Sys, RunBy 10 (fun _ _ _ => True) (crashedRequest ++ retry) s ∧
      (∀ n ∈ s.nodes, n.live = false) ∧
      (∃ row, Db.idempotency s.db 1 "k".toList = some row ∧ row.status = .inProgress) ∧
      ∃ n, s.nodes[5]? = some n ∧
        Node.response? n = some (errorHandler (.app .idempotencyInProgress))) ∧
    ∃ s : Sys, RunBy 10 (fun _ _ _ => True) (unsavedResponse ++ retry) s ∧
      (∀ n ∈ s.nodes, n.live = false) ∧
      (∃ row, Db.idempotency s.db 1 "k".toList = some row ∧ row.status = .inProgress) ∧
      (∃ n res, s.nodes[4]? = some n ∧ Node.claimed n = true ∧ Node.response? n = some res ∧
        res.status = 201) ∧
      ∃ n, s.nodes[5]? = some n ∧
        Node.response? n = some (errorHandler (.app .idempotencyInProgress)) := by
  refine ⟨?_, ?_⟩
  · have hrun : (runFrom 10 (crashedRequest ++ retry)).any (fun s : Sys =>
        s.nodes.all (fun n => !n.live) &&
        (Db.idempotency s.db 1 "k".toList).any (fun row => decide (row.status = .inProgress)) &&
        s.nodes[5]?.any (fun n => decide (Node.response? n =
          some (errorHandler (.app .idempotencyInProgress))))) = true := by
      decide +kernel
    obtain ⟨s, hs, htest⟩ := exists_run hrun
    simp only [Bool.and_eq_true, Option.any_eq_true, decide_eq_true_eq, List.all_eq_true,
      Bool.not_eq_true'] at htest
    exact ⟨s, hs, htest.1.1, htest.1.2, htest.2⟩
  · have hrun : (runFrom 10 (unsavedResponse ++ retry)).any (fun s : Sys =>
        s.nodes.all (fun n => !n.live) &&
        (Db.idempotency s.db 1 "k".toList).any (fun row => decide (row.status = .inProgress)) &&
        s.nodes[4]?.any (fun n => Node.claimed n &&
          (Node.response? n).any (fun res => decide (res.status = 201))) &&
        s.nodes[5]?.any (fun n => decide (Node.response? n =
          some (errorHandler (.app .idempotencyInProgress))))) = true := by
      decide +kernel
    obtain ⟨s, hs, htest⟩ := exists_run hrun
    simp only [Bool.and_eq_true, Option.any_eq_true, decide_eq_true_eq, List.all_eq_true,
      Bool.not_eq_true'] at htest
    obtain ⟨⟨⟨hdead, hrow⟩, n, hn, hclaimed, res, hres, hstatus⟩, hretried⟩ := htest
    exact ⟨s, hs, hdead, hrow, ⟨n, res, hn, hclaimed, hres, hstatus⟩, hretried⟩

end PaymentApis
