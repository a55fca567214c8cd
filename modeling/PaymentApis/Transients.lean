import PaymentApis.Culprits
import PaymentApis.Orphans

/-!
# Transient failures under a key

A client is told to retry by a server error, which frees the key, and by the
conflict that a transfer reports when its attempts have run out. The conflict is
answered with 409, so that the middleware saves it.
-/

namespace PaymentApis

open TxStore

/-- The failures that a client is to retry. -/
def Response.Transient (res : Response) : Prop :=
  res = errorHandler (.app .concurrencyConflict) ∨ 500 ≤ res.status

/-- The request has claimed its key, and has come to the end of its handler. -/
def Node.handled (n : Node) : Bool :=
  match keyStage n.log with
  | .completed true _ _ => true
  | .released true => true
  | _ => false

/-- In the run, request `i'` claims the key after `i` has, and goes into its
transfer: the next thing it does is to open the transaction. -/
def ClaimsAfter (min : ℤ) (m : Uuid) (key hash : Text) (dto : CreateTransferDto) (i i' : ℕ)
    (ls : List Step) : Prop :=
  ∃ (before : List Step) (l : Step) (after : List Step) (s₁ s₂ : Sys) (log : List Ev)
    (c : Prog Reply),
    ls = before ++ l :: after ∧ RunBy min (fun _ _ _ => True) before s₁ ∧
    s₁.next min l = some s₂ ∧ (i, .auto (.idempotencyInsert m key hash) ()) ∈ s₁.history ∧
    s₂.history = s₁.history ++ [(i', .auto (.idempotencyInsert m key hash) ())] ∧
    s₂.nodes[i']? = some ⟨log, .run c⟩ ∧ opens? c = some (.transfer m dto)

/-- Request `k` has read the row of the key, which `i'` had claimed last. -/
def ReadsRowOf (m : Uuid) (key : Text) (k i' : ℕ) (row : IdempotencyRow)
    (history : List (ℕ × Item)) : Prop :=
  ∃ h₁ h₂, history = h₁ ++ (k, .auto (.idempotencyGet m key) (some row)) :: h₂ ∧
    claimant m key h₁ = some i'

/-- The transfer of request `i` is run again for request `k`: by `k` itself, or by
another request with the fingerprint, whose row `k` has found. It has come to the end
of its handler, or is still at it when the row that `k` has found is in progress. -/
def Rerun (min : ℤ) (m : Uuid) (key hash : Text) (i k : ℕ) (ls : List Step) (s : Sys) : Prop :=
  ∃ (i' : ℕ) (dto : CreateTransferDto) (n : Node), i' ≠ i ∧
    (jobs ls)[i']? = some (.postTransfer m (some key) hash dto) ∧
    ClaimsAfter min m key hash dto i i' ls ∧ s.nodes[i']? = some n ∧
    (i' = k ∧ Node.handled n = true ∨
      ∃ row, ReadsRowOf m key k i' row s.history ∧ row.requestHash = hash ∧
        (Node.handled n = true ∨ row.status = .inProgress ∧ n.live = true))

/-! ## Stages and history -/

theorem claimant_eq_some {m : Uuid} {key : Text} {i : ℕ} :
    ∀ {history : List (ℕ × Item)}, claimant m key history = some i → ∃ g₁ it g₂,
      history = g₁ ++ (i, it) :: g₂ ∧ Item.claims m key it = true ∧
        ∀ x ∈ g₂, Item.claims m key x.2 = false := by
  intro history
  induction history using List.reverseRecOn with
  | nil =>
    intro h
    cases h
  | append_singleton history x ih =>
    obtain ⟨i', it⟩ := x
    intro h
    rw [claimant_append] at h
    split at h
    · rename_i hclaims
      cases h
      exact ⟨history, it, [], rfl, hclaims, by simp⟩
    · rename_i hno
      obtain ⟨g₁, it', g₂, rfl, hclaims, hlast⟩ := ih h
      refine ⟨g₁, it', g₂ ++ [(i', it)], by simp, hclaims, ?_⟩
      intro y hy
      rcases List.mem_append.mp hy with hy | hy
      · exact hlast y hy
      · rw [List.mem_singleton.mp hy]
        exact eq_false_of_ne_true hno

theorem Item.claims_iff {m : Uuid} {key : Text} {it : Item} :
    Item.claims m key it = true ↔ ∃ hash, it = .auto (.idempotencyInsert m key hash) () := by
  constructor
  · intro h
    unfold Item.claims at h
    split at h
    · obtain ⟨rfl, rfl⟩ := of_decide_eq_true h
      exact ⟨_, rfl⟩
    · cases h
  · rintro ⟨hash, rfl⟩
    simp [Item.claims]

section Rows

variable {min : ℤ} {m : Uuid} {key hash : Text} {js : List Job} {a : Abs} {i : ℕ}
  {dto : CreateTransferDto} {q : Bool × List Ev}

/-- What the stage of a request says about its commits. -/
theorem JReach.history_of_stage (h : JReach min (fun _ a => NoMiss a) js a)
    (hj : js[i]? = some (.postTransfer m (some key) hash dto)) (hq : a.procs[i]? = some q) :
    (keyStage q.2 ≠ .start → (∀ row, keyStage q.2 ≠ .answered row) →
      (i, .auto (.idempotencyInsert m key hash) ()) ∈ a.history) ∧
    ∀ row, keyStage q.2 = .answered row →
      (i, .auto (.idempotencyGet m key) (some row)) ∈ a.history := by
  refine TxStore.JReach.each_committed (F := fun i j log hist =>
    j = .postTransfer m (some key) hash dto → (keyStage log ≠ .start →
      (∀ row, keyStage log ≠ .answered row) →
        (i, .auto (.idempotencyInsert m key hash) ()) ∈ hist) ∧
      ∀ row, keyStage log = .answered row →
        (i, .auto (.idempotencyGet m key) (some row)) ∈ hist) ?_ ?_ ?_ ?_ h i _ q hj hq rfl
  · intro i j hist _ _
    refine ⟨fun hstart => absurd rfl hstart, ?_⟩
    intro row hrow
    cases hrow
  · intro i j log f hist hF
    rw [keyStage_fault]
    exact hF
  · intro js a i j log it p now d hist hmiss hmem _ hmay hF hjob
    have hold := hF hjob
    subst hjob
    obtain ⟨_, hkey, hkeyed⟩ := hmay
    cases hkey
    have hact := hkeyed.act
    generalize keyStage (log ++ it.events) = after at hact ⊢
    cases hact with
    | insert => simp
    | found row => simp
    | missed => exact absurd hmem (hmiss i m key)
    | transfer _ _ place | complete _ _ _ _ place | release _ place =>
      refine ⟨fun _ _ => List.mem_append_left _ (hold.1 ?_ ?_), ?_⟩
      · simp [place]
      · simp [place]
      · intro row hrow
        cases hrow
  · intro i j log k it hist _ hF hjob
    obtain ⟨hclaimed, hanswered⟩ := hF hjob
    exact ⟨fun h h' => List.mem_append_left _ (hclaimed h h'),
      fun row hrow => List.mem_append_left _ (hanswered row hrow)⟩

/-- What the commits of a request say about its stage. -/
theorem JReach.stage_of_history {P : List Job → Abs → Prop} (h : JReach min P js a)
    (hj : js[i]? = some (.postTransfer m (some key) hash dto)) (hq : a.procs[i]? = some q) :
    (∀ hash', (i, .auto (.idempotencyInsert m key hash') ()) ∈ a.history →
      keyStage q.2 ≠ .start ∧ ∀ row, keyStage q.2 ≠ .answered row) ∧
    ∀ row, (i, .auto (.idempotencyGet m key) (some row)) ∈ a.history →
      keyStage q.2 = .answered row := by
  refine TxStore.JReach.each_committed (F := fun i j log hist =>
    j = .postTransfer m (some key) hash dto →
      (∀ hash', (i, .auto (.idempotencyInsert m key hash') ()) ∈ hist →
        keyStage log ≠ .start ∧ ∀ row, keyStage log ≠ .answered row) ∧
      ∀ row, (i, .auto (.idempotencyGet m key) (some row)) ∈ hist →
        keyStage log = .answered row) ?_ ?_ ?_ ?_ h i _ q hj hq rfl
  · intro i j hist hearlier _
    exact ⟨fun _ hmem => absurd (hearlier _ hmem) (lt_irrefl i),
      fun _ hmem => absurd (hearlier _ hmem) (lt_irrefl i)⟩
  · intro i j log f hist hF
    rw [keyStage_fault]
    exact hF
  · intro js a i j log it p now d hist _ _ _ hmay hF hjob
    obtain ⟨hclaimed, hanswered⟩ := hF hjob
    subst hjob
    obtain ⟨_, hkey, hkeyed⟩ := hmay
    cases hkey
    have hact := hkeyed.act
    generalize keyStage (log ++ it.events) = after at hact ⊢
    simp only [List.mem_append, List.mem_singleton, Prod.mk.injEq, true_and]
    -- at its first statement a request has committed none of the two
    have hfirst : keyStage log = .start →
        (∀ hash', (i, .auto (.idempotencyInsert m key hash') ()) ∉ hist) ∧
          ∀ row, (i, .auto (.idempotencyGet m key) (some row)) ∉ hist := by
      intro place
      refine ⟨fun hash' hmem => (hclaimed hash' hmem).1 place, fun row hmem => ?_⟩
      rw [hanswered row hmem] at place
      cases place
    have hrunning : ∀ c x, keyStage log = .running c x →
        ∀ row, (i, .auto (.idempotencyGet m key) (some row)) ∉ hist := by
      intro c x place row hmem
      rw [hanswered row hmem] at place
      cases place
    cases hact with
    | insert place =>
      refine ⟨by simp, ?_⟩
      rintro row (hmem | hnew)
      · exact absurd hmem ((hfirst place).2 row)
      · cases hnew
    | found row place =>
      refine ⟨?_, ?_⟩
      · rintro hash' (hmem | hnew)
        · exact absurd hmem ((hfirst place).1 hash')
        · cases hnew
      · rintro row' (hmem | hnew)
        · exact absurd hmem ((hfirst place).2 row')
        · cases hnew
          rfl
    | missed place =>
      refine ⟨by simp, ?_⟩
      rintro row (hmem | hnew)
      · exact absurd hmem ((hfirst place).2 row)
      · cases hnew
    | transfer _ _ place | complete _ _ _ _ place | release _ place =>
      refine ⟨by simp, ?_⟩
      rintro row (hmem | hnew)
      · exact absurd hmem (hrunning _ _ place row)
      · cases hnew
  · intro i j log k it hist hne hF hjob
    obtain ⟨hclaimed, hanswered⟩ := hF hjob
    refine ⟨fun hash' hmem => hclaimed hash' ?_, fun row hmem => hanswered row ?_⟩ <;>
      simpa [Ne.symm hne] using hmem

/-- The request whose stage the row of a key says holds the key. -/
theorem JReach.holds_of_matches (h : JReach min (fun _ a => NoMiss a) js a)
    (hj : js[i]? = some (.postTransfer m (some key) hash dto)) (hq : a.procs[i]? = some q)
    {dto' : CreateTransferDto} {row : IdempotencyRow} (hmatch : (keyStage q.2).Matches m dto' row) :
    (keyStage q.2).holds = 1 := by
  have hown := JReach.claimed h hj hq (Job.carries_iff.mpr ⟨_, _, rfl⟩)
  generalize keyStage q.2 = st at hmatch hown
  cases st with
  | running c x | completed c x res =>
    obtain rfl : c = true := hown
    rfl
  | start | answered | released => exact hmatch.elim

end Rows

section Later

variable {min : ℤ} {ls ls' : List Step} {s s' : Sys} {m : Uuid} {key hash : Text}
  {dto : CreateTransferDto} {i k : ℕ} {n : Node} {res : Response}

theorem jobs_later {j : Job} (hj : (jobs ls)[i]? = some j) : (jobs (ls ++ ls'))[i]? = some j := by
  rw [jobs, List.flatMap_append]
  exact (List.getElem?_append_left (List.getElem?_eq_some_iff.mp hj).1).trans hj

/-- A request that has ended stays as it is. -/
theorem dead_stays {ok ok' : Sys → Step → Sys → Prop} (h : RunBy min ok ls s)
    (hn : s.nodes[i]? = some n) (hdead : n.live = false) (h' : RunBy min ok' (ls ++ ls') s') :
    s'.abs.procs[i]? = some (false, n.log) := by
  refine TxStore.Run.after (P := fun _ s' => s'.abs.procs[i]? = some (false, n.log)) h ?_ ?_ h'
  · rw [abs_proc hn, hdead]
  · intro ls' s₁ l s₂ hrun hstep _ ih
    exact (run_step_refines hrun hstep).dead ih

/-- The job of a process, at an earlier state of the run. -/
theorem job_before {ok : Sys → Step → Sys → Prop} {before after : List Step} {l : Step} {s₁ : Sys}
    {j : Job} (hrun : RunBy min ok before s₁) (hj : (jobs (before ++ l :: after))[i]? = some j)
    (hi : i < s₁.nodes.length) : (jobs before)[i]? = some j := by
  rw [jobs, List.flatMap_append, List.getElem?_append_left] at hj
  · exact hj
  · show i < (jobs before).length
    rwa [hrun.length_jobs]

/-- Whoever claims its key goes into its transfer. -/
theorem claims_after {ok : Sys → Step → Sys → Prop} (hok : ∀ s l s', ok s l s' → Kept s l)
    (h : RunBy min ok ls s) (hj : (jobs ls)[k]? = some (.postTransfer m (some key) hash dto))
    {h₁ h₂ : List (ℕ × Item)} {it : Item} (hsplit : s.history = h₁ ++ (k, it) :: h₂)
    (hclaims : Item.claims m key it = true)
    (hfirst : (i, .auto (.idempotencyInsert m key hash) ()) ∈ h₁) :
    ClaimsAfter min m key hash dto i k ls := by
  obtain ⟨before, l, after, s₁, s₂, rfl, hrun, hstep, -, rfl, hlast⟩ := h.located hsplit
  rcases TxStore.Sys.step_history hstep with
    ⟨hsame, -⟩ | ⟨k', u, n, n', it', ws, rfl, hn, hmove, hitem⟩
  · rw [hsame] at hlast
    simp at hlast
  have hnew : (k', it') = (k, it) := by simpa [hitem] using hlast
  simp only [Prod.mk.injEq] at hnew
  obtain ⟨rfl, rfl⟩ := hnew
  have hj₁ := job_before hrun hj (List.getElem?_eq_some_iff.mp hn).1
  obtain ⟨_, hkey, hmay⟩ := RunBy.may hrun hj₁ hn hmove
  cases hkey
  have hplace := RunBy.place (fun _ => True) (fun _ _ _ hk => (hok _ _ _ hk).1)
    (fun _ _ _ _ _ _ _ => .inl trivial) (fun _ _ => trivial) hrun hj₁ hn
  have hthere : s₂.nodes[k']? = some n' := by
    have hset := hstep
    simp only [TxStore.Sys.step, hn, hmove, Option.map_some, Option.some.injEq] at hset
    subst hset
    exact List.getElem?_set_self (List.getElem?_eq_some_iff.mp hn).1
  cases hplace with
  | claims program =>
    obtain ⟨c, rfl, -, -, -, hopens⟩ := program
    generalize hcommit : some (it', ws) = commit at hmove
    cases TxStore.Node.moves hmove with
    | queryFails => cases hcommit
    | query =>
      cases hcommit
      exact ⟨before, .run k' u, after, s₁, s₂, _, _, rfl, hrun.imp fun _ _ _ _ => trivial, hstep,
        hfirst, hlast, hthere, hopens⟩
  | looks program =>
    obtain ⟨c, rfl, -⟩ := program
    generalize hcommit : some (it', ws) = commit at hmove
    cases TxStore.Node.moves hmove with
    | queryFails => cases hcommit
    | query =>
      cases hcommit
      cases hclaims
  | handles stage =>
    have hact := hmay.act
    generalize keyStage (n.log ++ it'.events) = stage' at hact
    cases hact with
    | insert place =>
      rw [place] at stage
      cases stage
    | found | missed | transfer | complete | release => cases hclaims
  | ended stopped =>
    have hlive := TxStore.Node.live_of_step hmove
    rw [stopped.live] at hlive
    cases hlive

/-- The request whose row a later request has found claimed the key after the one that
has freed it. -/
theorem found_row {ok : Sys → Step → Sys → Prop}
    (hok : ∀ s l s', ok s l s' → Kept s l)
    (h : RunBy min (fun s l _ => Kept s l) ls s)
    (hj : (jobs ls)[i]? = some (.postTransfer m (some key) hash dto)) (hn : s.nodes[i]? = some n)
    (hdead : n.live = false) (hstage : keyStage n.log = .released true)
    (h' : RunBy min ok (ls ++ ls') s') (hlater : s.nodes.length ≤ k)
    {row : IdempotencyRow} (hown : row.requestHash = hash)
    (hread : (k, .auto (.idempotencyGet m key) (some row)) ∈ s'.history) :
    ∃ (i' : ℕ) (dto' : CreateTransferDto) (n₁ : Node), i' ≠ i ∧
      (jobs (ls ++ ls'))[i']? = some (.postTransfer m (some key) hash dto') ∧
      ClaimsAfter min m key hash dto' i i' (ls ++ ls') ∧ s'.nodes[i']? = some n₁ ∧
      ReadsRowOf m key k i' row s'.history ∧
      (Node.handled n₁ = true ∨ row.status = .inProgress ∧ n₁.live = true) := by
  subst hown
  obtain ⟨h₁, h₂, hsplit⟩ := List.append_of_mem hread
  obtain ⟨before, l, after, s₁, s₂, hls, hrun, hstep, -, rfl, hlast⟩ := h'.located hsplit
  -- the read comes after the key was freed
  obtain ⟨u, nk, k₀, ws, rfl, hnk, -, hout⟩ := TxStore.Sys.step_auto hstep hlast
  have hk : k < s₁.nodes.length := (List.getElem?_eq_some_iff.mp hnk).1
  obtain ⟨ls'', rfl, rfl⟩ := h.split_later hls hrun hlater hk
  have hexec : (Sql.exec (.idempotencyGet m key) ⟨s₁.now, u⟩ (s₁.busy k) s₁.db).out =
      .ok (some row, ws) := hout
  have hrow : Db.idempotency s₁.db m key = some row := (Sql.idempotencyGet_ok hexec).1.symm
  have hreach₁ := keyed_reach (hrun.imp fun _ _ _ hk => (hok _ _ _ hk).2)
  have hreach' := keyed_reach (h'.imp fun _ _ _ hk => (hok _ _ _ hk).2)
  -- the row is that of a request which holds the key
  obtain ⟨i', dto', q, hj', hq, hmatch⟩ := JReach.holder hreach₁ hrow
  obtain ⟨n₁, hn₁, rfl⟩ := of_abs_proc hq
  have hne : i' ≠ i := by
    rintro rfl
    have hdead₁ := dead_stays h hn hdead hrun
    rw [hdead₁, Option.some.injEq] at hq
    rw [← hq, hstage] at hmatch
    exact hmatch
  have hholds := JReach.holds_of_matches hreach₁ hj' hq hmatch
  obtain ⟨_, -, -, hclaimant, -⟩ := JReach.held_row hreach₁ hj' hq hholds
  -- which claimed it after the one that has freed it
  obtain ⟨g₁, it, g₂, hg, hclaims, hno⟩ := claimant_eq_some hclaimant
  have hhistory : s₁.history = g₁ ++ (i', it) :: g₂ := hg
  have hfirst : (i, .auto (.idempotencyInsert m key row.requestHash) ()) ∈ g₁ := by
    have hreach := keyed_reach (h.imp fun _ _ _ hk => hk.2)
    have hmem := (JReach.history_of_stage hreach hj (abs_proc hn)).1 (by simp [hstage])
      (by simp [hstage])
    have hthere := (h.history_prefix hrun).subset hmem
    rw [hhistory] at hthere
    rcases List.mem_append.mp hthere with hmem | hmem
    · exact hmem
    rcases List.mem_cons.mp hmem with heq | hmem
    · cases heq
      exact absurd rfl hne
    · have hclaims' := hno _ hmem
      simp [Item.claims] at hclaims'
  have hj'' : (jobs (ls ++ (ls'' ++ .run k u :: after)))[i']? =
      some (.postTransfer m (some key) row.requestHash dto') := by
    rw [← List.append_assoc]
    exact jobs_later hj'
  have hlater' : s'.history = g₁ ++ (i', it) :: (g₂ ++ (k, .auto (.idempotencyGet m key) (some row))
      :: h₂) := by
    rw [hsplit, hhistory]
    simp
  obtain ⟨n₂, hn₂⟩ : ∃ n₂, s'.nodes[i']? = some n₂ := by
    have hi' := (List.getElem?_eq_some_iff.mp hj'').1
    rw [h'.length_jobs] at hi'
    exact ⟨_, List.getElem?_eq_getElem hi'⟩
  refine ⟨i', dto', n₂, hne, hj'', claims_after hok h' hj'' hlater' hclaims hfirst, hn₂,
    ⟨s₁.history, h₂, hsplit, hclaimant⟩, ?_⟩
  obtain ⟨hash', rfl⟩ := Item.claims_iff.mp hclaims
  have hmem : (i', .auto (.idempotencyInsert m key hash') ()) ∈ s'.history := by simp [hlater']
  have hstage₂ := (JReach.stage_of_history hreach' hj'' (abs_proc hn₂)).1 hash' hmem
  have hown₂ := JReach.claimed hreach' hj'' (abs_proc hn₂) (Job.carries_iff.mpr ⟨_, _, rfl⟩)
  cases hst : keyStage n₂.log with
  | start => exact absurd hst hstage₂.1
  | answered row' => exact absurd hst (hstage₂.2 row')
  | completed c x res =>
    rw [hst] at hown₂
    obtain rfl : c = true := hown₂
    exact .inl (by simp [Node.handled, hst])
  | released c =>
    rw [hst] at hown₂
    obtain rfl : c = true := hown₂
    exact .inl (by simp [Node.handled, hst])
  | running c x =>
    rw [hst] at hown₂
    obtain rfl : c = true := hown₂
    refine .inr ⟨?_, ?_⟩
    · -- a row that was completed would be that of a request at its end
      cases hst₁ : keyStage n₁.log with
      | running c' x' =>
        rw [hst₁] at hmatch
        exact hmatch
      | completed c' x' res' =>
        rw [hst₁] at hholds
        cases c' with
        | false => cases hholds
        | true =>
          have hbefore : RunBy min (fun s l _ => Kept s l) (ls ++ ls'') s₁ := hrun.imp hok
          have hafter : RunBy min ok ((ls ++ ls'') ++ .run k u :: after) s' := by
            rwa [List.append_assoc]
          obtain ⟨⟨-, q, hq₂, hcompleted⟩, -⟩ := later_replays (fun _ _ _ hk => (hok _ _ _ hk).2)
            hbefore hj' hn₁ hst₁ hafter
          rw [abs_proc hn₂, Option.some.injEq] at hq₂
          rw [← hq₂, hst] at hcompleted
          cases hcompleted
      | start | answered | released =>
        rw [hst₁] at hmatch
        exact hmatch.elim
    · cases RunBy.place (fun _ => True) (fun _ _ _ hk => (hok _ _ _ hk).1)
          (fun _ _ _ _ _ _ _ => .inl trivial) (fun _ _ => trivial) h' hj'' hn₂ with
      | claims | looks => cases hst
      | handles _ closes => exact closes.live
      | ended _ stage => exact absurd hst (stage x)

/-- A later request that has claimed the key itself runs the transfer again. -/
theorem own_rerun {ok : Sys → Step → Sys → Prop} (hok : ∀ s l s', ok s l s' → Kept s l)
    (h : RunBy min (fun s l _ => Kept s l) ls s) (hn : s.nodes[i]? = some n)
    (hfirst : (i, .auto (.idempotencyInsert m key hash) ()) ∈ s.history)
    (h' : RunBy min ok (ls ++ ls') s') (hlater : s.nodes.length ≤ k) {n' : Node}
    (hk : (jobs (ls ++ ls'))[k]? = some (.postTransfer m (some key) hash dto))
    (hn' : s'.nodes[k]? = some n')
    (hmem : (k, .auto (.idempotencyInsert m key hash) ()) ∈ s'.history)
    (hhandled : Node.handled n' = true) : Rerun min m key hash i k (ls ++ ls') s' := by
  have hi : i < s.nodes.length := (List.getElem?_eq_some_iff.mp hn).1
  obtain ⟨h₁, h₂, hsplit⟩ := List.append_of_mem hmem
  obtain ⟨before, l, after, s₁, s₂, hls, hrun, hstep, -, rfl, hlast⟩ := h'.located hsplit
  obtain ⟨u, nk, k₀, ws, rfl, hnk, -⟩ := TxStore.Sys.step_auto hstep hlast
  obtain ⟨ls'', rfl, -⟩ :=
    h.split_later hls hrun hlater (List.getElem?_eq_some_iff.mp hnk).1
  have hafter := claims_after hok h' hk hsplit (Item.claims_iff.mpr ⟨hash, rfl⟩)
    ((h.history_prefix hrun).subset hfirst)
  exact ⟨k, dto, n', by omega, hk, hafter, hn', .inl ⟨rfl, hhandled⟩⟩

/-- The row that a later request finds is that of the request which has saved its
response. -/
theorem found_holder {ok : Sys → Step → Sys → Prop} (hok : ∀ s l s', ok s l s' → Kept s l)
    (h : RunBy min (fun s l _ => Kept s l) ls s)
    (hj : (jobs ls)[i]? = some (.postTransfer m (some key) hash dto)) (hn : s.nodes[i]? = some n)
    {x : Bool} (hstage : keyStage n.log = .completed true x res)
    (h' : RunBy min ok (ls ++ ls') s') (hlater : s.nodes.length ≤ k) {row : IdempotencyRow}
    {h₁ h₂ : List (ℕ × Item)} {i' : ℕ}
    (hsplit : s'.history = h₁ ++ (k, .auto (.idempotencyGet m key) (some row)) :: h₂)
    (hclaimant : claimant m key h₁ = some i') : i' = i := by
  obtain ⟨before, l, after, s₁, s₂, hls, hrun, hstep, -, rfl, hlast⟩ := h'.located hsplit
  obtain ⟨u, nk, k₀, ws, rfl, hnk, -, hout⟩ := TxStore.Sys.step_auto hstep hlast
  have hk : k < s₁.nodes.length := (List.getElem?_eq_some_iff.mp hnk).1
  obtain ⟨ls'', rfl, rfl⟩ := h.split_later hls hrun hlater hk
  have hreach₁ := keyed_reach (hrun.imp fun _ _ _ hk => (hok _ _ _ hk).2)
  obtain ⟨⟨hj₁, q, hq, hstage₁⟩, -⟩ :=
    later_replays (fun _ _ _ hk => (hok _ _ _ hk).2) h hj hn hstage hrun
  obtain ⟨_, -, -, hholder, -⟩ := JReach.held_row hreach₁ hj₁ hq (by rw [hstage₁]; rfl)
  exact Option.some.inj (hclaimant.symm.trans hholder)

/-- A later request that has been answered has come to the row of its key, and to the end
of its handler if it runs it. -/
theorem later_stage {N : ℕ} (hkey : key ≠ [])
    (h : RunBy min (fun s l _ => Kept s l ∧ s.claimsKept m key N l = true) ls s) (hlater : N ≤ k)
    (hj : (jobs ls)[k]? = some (.postTransfer m (some key) hash dto)) (hn : s.nodes[k]? = some n)
    (hres : Node.response? n = some res) :
    keyStage n.log ≠ .start ∧ ∀ x, keyStage n.log ≠ .running true x := by
  cases later_place hkey h hlater hj hn with
  | claims program =>
    obtain ⟨_, rfl, -⟩ := program
    cases hres
  | looks program =>
    obtain ⟨_, rfl, -⟩ := program
    cases hres
  | handles _ closes =>
    have hdead : n.live = false := Node.Stopped.live (.inr ⟨res, Node.response?_eq_some hres⟩)
    rw [closes.live] at hdead
    cases hdead
  | ended _ stage start _ =>
    refine ⟨fun hstart => ?_, stage⟩
    rcases start hstart with hcrashed | hlost
    · rw [Node.response?, hcrashed] at hres
      cases hres
    · exact hlost

/-- No server error is answered by replay. -/
theorem replayed_status (h : RunBy min (fun s l _ => Kept s l) ls s)
    (hj : (jobs ls)[i]? = some (.postTransfer m (some key) hash dto)) (hn : s.nodes[i]? = some n)
    (hres : Node.response? n = some res) (hreplayed : Node.replayed hash n = true) :
    res.status < 500 := by
  obtain ⟨row, res', hres', hstage, rfl, hstatus⟩ := Node.replayed_iff hreplayed
  obtain rfl : res' = res := Option.some.inj (hres'.symm.trans hres)
  have hreach := keyed_reach (h.imp fun _ _ _ hok => hok.2)
  obtain ⟨i₀, dto₀, q₀, c, x, hj₀, hq₀, hstage₀, -⟩ :=
    JReach.source hreach hj (Job.carries_iff.mpr ⟨_, _, rfl⟩) (abs_proc hn) hstage hstatus
  obtain ⟨n₀, hn₀, rfl⟩ := of_abs_proc hq₀
  have hanswered := RunBy.answered h hj hn hres
  rw [Answered, hstage] at hanswered
  rw [(if_pos ⟨rfl, hstatus⟩).mp hanswered]
  have hplace := RunBy.place (fun _ => True) (fun _ _ _ hok => hok.1)
    (fun _ _ _ _ _ _ _ => .inl trivial) (fun _ _ => trivial) h hj₀ hn₀
  exact hplace.saved hstage₀

end Later

/-! ## Which failures are retryable -/

/-- While every claim is seen through to its end and nobody reads the row of a key
in vain: after a transient failure of the request that has claimed a key, a later
request with its fingerprint, once answered, has had the transfer run again and is not
answered by replay of the failure, if and only if the failure is not the conflict, and
the row that the later request has found, if any, is not that of another body. -/
theorem transient_rerun_iff {min : ℤ} {ls ls' : List Step} {s s' : Sys} {m : Uuid}
    {key hash : Text} {i k : ℕ} {dto dto' : CreateTransferDto} {n n' : Node} {res : Response}
    (h : RunBy min (fun s l _ => Kept s l) ls s)
    (hj : (jobs ls)[i]? = some (.postTransfer m (some key) hash dto)) (hn : s.nodes[i]? = some n)
    (hclaimed : Node.claimed n = true) (hres : Node.response? n = some res)
    (htransient : res.Transient)
    (h' : RunBy min (fun s₁ l _ => Kept s₁ l ∧ s₁.claimsKept m key s.nodes.length l = true)
      (ls ++ ls') s')
    (hlater : s.nodes.length ≤ k)
    (hk : (jobs (ls ++ ls'))[k]? = some (.postTransfer m (some key) hash dto'))
    (hn' : s'.nodes[k]? = some n') (hanswered : (Node.response? n').isSome = true) :
    Rerun min m key hash i k (ls ++ ls') s' ∧
        ¬ (Node.replayed hash n' = true ∧ Node.response? n' = some res) ↔
      res ≠ errorHandler (.app .concurrencyConflict) ∧
        ∀ row, (k, .auto (.idempotencyGet m key) (some row)) ∈ s'.history →
          row.requestHash = hash := by
  have hkept' : RunBy min (fun s l _ => Kept s l) (ls ++ ls') s' := h'.imp fun _ _ _ hk => hk.1
  have hreach := keyed_reach (hkept'.imp fun _ _ _ hok => hok.2)
  have hread := (JReach.stage_of_history hreach hk (abs_proc hn')).2
  have hconflict : (errorHandler (.app .concurrencyConflict)).status = 409 := rfl
  rcases claimed_answered h hj hn hclaimed hres with ⟨x, hstage, hsaved⟩ | ⟨hstage, hserver⟩
  · -- the failure is saved, and the request keeps its claim
    obtain rfl : res = errorHandler (.app .concurrencyConflict) := by
      rcases htransient with rfl | hserver
      · rfl
      · omega
    refine ⟨?_, fun hne => absurd rfl hne.1⟩
    rintro ⟨⟨i', dto₁, n₁, hne, -, -, hn₁, hran⟩, -⟩
    exfalso
    rcases hran with ⟨rfl, hhandled⟩ | ⟨row, ⟨h₁, h₂, hsplit, hclaimant⟩, -⟩
    · obtain rfl : n' = n₁ := Option.some.inj (hn'.symm.trans hn₁)
      have hreplays := (later_replays (fun _ _ _ hk => hk.1.2) h hj hn hstage h').2 _ _ _ hk
        (abs_proc hn') hlater (Job.carries_iff.mpr ⟨_, _, rfl⟩)
      unfold Node.handled at hhandled
      generalize keyStage n'.log = st at *
      cases st with
      | start | answered | running => cases hhandled
      | completed | released => exact hreplays
    · exact hne (found_holder (fun _ _ _ hk => hk.1) h hj hn hstage h' hlater hsplit hclaimant)
  · -- the key is free, and the later request does not stay without it
    have hdead : n.live = false := Node.Stopped.live (.inr ⟨res, Node.response?_eq_some hres⟩)
    obtain ⟨res', hres'⟩ := Option.isSome_iff_exists.mp hanswered
    have hfirst : (i, .auto (.idempotencyInsert m key hash) ()) ∈ s.history :=
      (JReach.history_of_stage (keyed_reach (h.imp fun _ _ _ hok => hok.2)) hj (abs_proc hn)).1
        (by simp [hstage]) (by simp [hstage])
    obtain ⟨hclaim, hfound⟩ := JReach.history_of_stage hreach hk (abs_proc hn')
    simp only at hclaim hfound hread
    refine ⟨?_, ?_⟩
    · rintro ⟨⟨i', dto₁, n₁, -, -, -, hn₁, hran⟩, -⟩
      refine ⟨?_, ?_⟩
      · rintro rfl
        omega
      intro row hmem
      rcases hran with ⟨rfl, hhandled⟩ | ⟨row', ⟨h₁, h₂, hsplit, -⟩, hhash, -⟩
      · obtain rfl : n' = n₁ := Option.some.inj (hn'.symm.trans hn₁)
        rw [Node.handled, hread row hmem] at hhandled
        cases hhandled
      · have hmem' : (k, .auto (.idempotencyGet m key) (some row')) ∈ s'.history := by simp [hsplit]
        have hrow := (hread row hmem).symm.trans (hread row' hmem')
        cases hrow
        exact hhash
    · rintro ⟨-, hown⟩
      refine ⟨?_, ?_⟩
      · have hclaimed' := JReach.claimed hreach hk (abs_proc hn') (Job.carries_iff.mpr ⟨_, _, rfl⟩)
        simp only at hclaimed'
        cases hst : keyStage n'.log with
        | answered row =>
          obtain ⟨i', dto₁, n₁, hne, hj', hafter, hn₁, hreads, hran⟩ :=
            found_row (fun _ _ _ hk => hk.1) h hj hn hdead hstage h' hlater
              (hown row (hfound row hst)) (hfound row hst)
          exact ⟨i', dto₁, n₁, hne, hj', hafter, hn₁,
            .inr ⟨row, hreads, hown row (hfound row hst), hran⟩⟩
        | completed c x r =>
          rw [hst] at hclaimed'
          obtain rfl : c = true := hclaimed'
          exact own_rerun (fun _ _ _ hk => hk.1) h hn hfirst h' hlater hk hn'
            (hclaim (by simp [hst]) (by simp [hst])) (by simp [Node.handled, hst])
        | released c =>
          rw [hst] at hclaimed'
          obtain rfl : c = true := hclaimed'
          exact own_rerun (fun _ _ _ hk => hk.1) h hn hfirst h' hlater hk hn'
            (hclaim (by simp [hst]) (by simp [hst])) (by simp [Node.handled, hst])
        | start =>
          exact absurd hst (later_stage (key_ne_nil h hj hn hclaimed) h' hlater hk hn' hres').1
        | running c x =>
          rw [hst] at hclaimed'
          obtain rfl : c = true := hclaimed'
          exact absurd hst
            ((later_stage (key_ne_nil h hj hn hclaimed) h' hlater hk hn' hres').2 x)
      · rintro ⟨hreplayed, hsame⟩
        have := replayed_status hkept' hk hn' hsame hreplayed
        omega

/-- A keyed transfer fails on the server's side, and its retry is executed. -/
def retriedFailure : List Step :=
  paidHundred ++
    [.start (.postTransfer 1 (some "k".toList) "body".toList transferFifty), .run 4 20,
      .fault 4 (.connection "Connection terminated unexpectedly"), .run 4 21]

def retryInFull : List Step :=
  .start (.postTransfer 1 (some "k".toList) "body".toList transferFifty) :: drive 5 11 40

/-- A keyed transfer loses against five others in turn, and its retry is answered. -/
def keyedConflict : List Step :=
  paidHundred ++
    .start (.postTransfer 1 (some "k".toList) "body".toList transferFifty) :: drive 4 1 20 ++
    (List.range 5).flatMap (fun k =>
      drive 4 3 20 ++ .start (.transfer 1 transferTen) :: drive (5 + k) 9 (40 + 10 * k) ++
        drive 4 6 23) ++
    drive 4 1 30

def retryConflict : List Step :=
  .start (.postTransfer 1 (some "k".toList) "body".toList transferFifty) :: drive 10 2 200

/-- The request has found the row of its key. -/
def Item.finds : Item → Bool
  | .auto (.idempotencyGet _ _) (some _) => true
  | _ => false

theorem transient_rerun_retried : ∃ (s' : Sys) (n' : Node), s'.nodes[5]? = some n' ∧
    (Node.response? n').map Response.status = some 201 ∧
    Rerun 10 1 "k".toList "body".toList 4 5 (retriedFailure ++ retryInFull) s' := by
  have hfirst : (runWhile 10 (fun s l _ => s.keysKept l && s.keyStillThere l) retriedFailure).any
      (fun s : Sys => decide (s.nodes.length = 5) && s.nodes[4]?.any (fun n =>
        Node.claimed n && (Node.response? n).any (fun res => decide (500 ≤ res.status)))) =
      true := by
    decide +kernel
  have hsecond : (runWhile 10 (fun s l _ => s.keysKept l && s.keyStillThere l &&
      s.claimsKept 1 "k".toList 5 l) (retriedFailure ++ retryInFull)).any (fun s : Sys =>
        s.history.all (fun x => !(x.1 == 5 && Item.finds x.2)) &&
        s.nodes[5]?.any (fun n => decide ((Node.response? n).map Response.status = some 201))) =
      true := by
    decide +kernel
  obtain ⟨s, hs, htest⟩ := exists_runWhile hfirst
  obtain ⟨s', hs', htest'⟩ := exists_runWhile hsecond
  simp only [Bool.and_eq_true, Option.any_eq_true, decide_eq_true_eq, List.all_eq_true]
    at htest htest'
  obtain ⟨hlen, n, hn, hclaimed, res, hres, hserver⟩ := htest
  obtain ⟨hnone, n', hn', hcreated⟩ := htest'
  have hanswered : (Node.response? n').isSome = true := by
    cases hres' : Node.response? n' with
    | none => simp [hres'] at hcreated
    | some res' => rfl
  have hne : res ≠ errorHandler (.app .concurrencyConflict) := by
    rintro rfl
    exact absurd hserver (by decide)
  have hown : ∀ row, (5, .auto (.idempotencyGet 1 "k".toList) (some row)) ∈ s'.history →
      row.requestHash = "body".toList := by
    intro row hmem
    exact absurd (hnone _ hmem) (by simp [Item.finds])
  have hlater : RunBy 10 (fun s₁ l _ => Kept s₁ l ∧
      s₁.claimsKept 1 "k".toList s.nodes.length l = true) (retriedFailure ++ retryInFull) s' := by
    rw [hlen]
    exact hs'.imp fun _ _ _ hok => by simpa using hok
  have hj : (jobs retriedFailure)[4]? =
      some (.postTransfer 1 (some "k".toList) "body".toList transferFifty) := rfl
  have hk : (jobs (retriedFailure ++ retryInFull))[5]? =
      some (.postTransfer 1 (some "k".toList) "body".toList transferFifty) := rfl
  have hkept : RunBy 10 (fun s l _ => Kept s l) retriedFailure s :=
    hs.imp fun _ _ _ hok => (Bool.and_eq_true _ _).mp hok
  exact ⟨s', n', hn', hcreated, ((transient_rerun_iff hkept hj hn hclaimed hres (.inr hserver)
    hlater hlen.le hk hn' hanswered).mpr ⟨hne, hown⟩).1⟩

/-- The conflict is replayed to a retry: nobody else has claimed the key, and nothing
has failed that the retry depends on. -/
theorem conflict_replayed : ∃ s : Sys,
    RunBy 10 (fun s l _ => (s.keysKept l && s.keyStillThere l) = true)
      (keyedConflict ++ retryConflict) s ∧
    claimant 1 "k".toList s.history = some 4 ∧
    (∀ it, (4, it) ∈ s.history → Item.isTransfer it = false) ∧
    ∃ n n', s.nodes[4]? = some n ∧ s.nodes[10]? = some n' ∧
      Node.response? n = some (errorHandler (.app .concurrencyConflict)) ∧
      Node.replayed "body".toList n' = true ∧
      Node.response? n' = some (errorHandler (.app .concurrencyConflict)) := by
  have hrun : (runWhile 10 (fun s l _ => s.keysKept l && s.keyStillThere l)
      (keyedConflict ++ retryConflict)).any (fun s : Sys =>
        decide (claimant 1 "k".toList s.history = some 4) &&
        s.history.all (fun x => !(x.1 == 4 && Item.isTransfer x.2)) &&
        s.nodes[4]?.any (fun n => decide (Node.response? n =
          some (errorHandler (.app .concurrencyConflict)))) &&
        s.nodes[10]?.any (fun n => Node.replayed "body".toList n && decide (Node.response? n =
          some (errorHandler (.app .concurrencyConflict))))) = true := by
    decide +kernel
  obtain ⟨s, hs, htest⟩ := exists_runWhile hrun
  simp only [Bool.and_eq_true, Option.any_eq_true, decide_eq_true_eq, List.all_eq_true] at htest
  obtain ⟨⟨⟨hclaimant, hnothing⟩, n, hn, hres⟩, n', hn', hreplayed, hres'⟩ := htest
  refine ⟨s, hs, hclaimant, ?_, n, n', hn, hn', hres, hreplayed, hres'⟩
  intro it hmem
  simpa using hnothing _ hmem

end PaymentApis
