import PaymentApis.Auth

/-!
# What a session stands for

The table of merchants only grows, and a token that verifies was issued by a
login. So the middleware lets a merchant pass within an hour of a login with the
password of its account, which is still there; and an email has one account,
whoever races for it.
-/

namespace PaymentApis.Auth

open TxStore Processes

/-! ## The table of merchants -/

namespace Merchants

theorem find_eq_some {α β : Type} [DecidableEq β] {f : α → β} {l : List α} (h : (l.map f).Nodup)
    {a : α} {b : β} : l.find? (fun x => decide (f x = b)) = some a ↔ a ∈ l ∧ f a = b := by
  constructor
  · intro hfind
    exact ⟨List.mem_of_find?_eq_some hfind, by simpa using List.find?_some hfind⟩
  · rintro ⟨ha, rfl⟩
    obtain ⟨a', hfind⟩ : ∃ a', l.find? (fun x => decide (f x = f a)) = some a' := by
      rw [← Option.isSome_iff_exists, List.find?_isSome]
      exact ⟨a, ha, by simp⟩
    have hkey : f a' = f a := by simpa using List.find?_some hfind
    rw [hfind, List.inj_on_of_nodup_map h (List.mem_of_find?_eq_some hfind) ha hkey]

variable {t t' : Merchants} {id : Uuid} {email hash : Text} {row row' : MerchantRow}

theorem findByEmail_eq_some : t.findByEmail email = some row ↔ row ∈ t.rows ∧ row.email = email :=
  find_eq_some t.emails

theorem findById_eq_some : t.findById id = some row ↔ row ∈ t.rows ∧ row.id = id :=
  find_eq_some t.ids

theorem eq_of_email (hrow : row ∈ t.rows) (hrow' : row' ∈ t.rows) (h : row.email = row'.email) :
    row = row' :=
  List.inj_on_of_nodup_map t.emails hrow hrow' h

/-- What an insert comes to. -/
inductive Inserts (t : Merchants) (id : Uuid) (email hash : Text) :
    Except Fault MerchantRow → Merchants → Prop
  | added {t' : Merchants} (id_new : ¬ ∃ r ∈ t.rows, r.id = id)
      (rows : t'.rows = t.rows ++ [⟨id, email, hash⟩]) :
      Inserts t id email hash (.ok ⟨id, email, hash⟩) t'
  | taken (email_old : ∃ r ∈ t.rows, r.email = email) :
      Inserts t id email hash (.error .uniqueViolation) t

theorem inserts {r : Except Fault MerchantRow} (h : t.insert id email hash = some (r, t')) :
    Inserts t id email hash r t' := by
  unfold insert at h
  split at h
  · cases h
  split at h
  · rename_i hemail
    cases h
    exact .taken hemail
  · rename_i hid hemail
    cases h
    exact .added hid rfl

end Merchants

/-! ## One action -/

/-- What an action does to the table. -/
inductive Accounts.Acts (w : Accounts) (s : Op) (w' : Accounts) : Prop
  | keeps (same : w' = w)
  | adds {email hash id} (op : s = .merchantInsert email hash) (now : w'.now = w.now)
      (rows : w'.merchants.rows = w.merchants.rows ++ [⟨id, email, hash⟩])

/-- What an entry of a record says, of the table and the clock it leaves. -/
def Holds (lib : Libraries) (w : Accounts) : Done → Prop
  | ⟨.bcryptHash plain, r⟩ => ∀ hash, r = .ok hash → ∃ salt, hash = lib.hash plain salt
  | ⟨.bcryptCompare plain hash, r⟩ => ∀ ok, r = .ok ok → ok = lib.compare plain hash
  | ⟨.jwtSign payload, r⟩ => ∀ token, r = .ok token →
      ∃ iat ≤ w.seconds, token = lib.sign payload iat (iat + EXPIRES_IN)
  | ⟨.jwtVerify token, r⟩ => ∀ decoded, r = .ok decoded →
      ∃ now ≤ w.seconds, decoded = lib.verify token now
  | ⟨.merchantInsert email hash, r⟩ =>
    (∀ row, r = .ok row → row ∈ w.merchants.rows ∧ row.email = email ∧ row.passwordHash = hash) ∧
      (r = .error (.db .uniqueViolation) → ∃ row ∈ w.merchants.rows, row.email = email)
  | ⟨.merchantFindByEmail email, r⟩ => ∀ row, r = .ok (some row) →
      row ∈ w.merchants.rows ∧ row.email = email
  | ⟨.merchantFindById id, r⟩ => ∀ row, r = .ok (some row) →
      row ∈ w.merchants.rows ∧ row.id = id

section Act

variable {lib : Libraries} {w w' : Accounts}

theorem select_cases {α : Type} {o : Outcome} {a : α} {r : Except Failure α}
    (h : Accounts.select o w a = some (r, w')) :
    w' = w ∧ (r = .ok a ∨ ∃ message, r = .error (.db (.connection message))) := by
  cases o with
  | done drawn =>
    obtain ⟨rfl, rfl⟩ := Prod.mk.inj (Option.some.inj h)
    exact ⟨rfl, .inl rfl⟩
  | failed message =>
    obtain ⟨rfl, rfl⟩ := Prod.mk.inj (Option.some.inj h)
    exact ⟨rfl, .inr ⟨message, rfl⟩⟩
  | lost drawn message =>
    obtain ⟨rfl, rfl⟩ := Prod.mk.inj (Option.some.inj h)
    exact ⟨rfl, .inr ⟨message, rfl⟩⟩

theorem compute_cases {α : Type} {o : Outcome} {f : ℕ → α} {r : Except Failure α}
    (h : Accounts.compute o w f = some (r, w')) : w' = w ∧ ∃ drawn, r = .ok (f drawn) := by
  cases o with
  | done drawn =>
    obtain ⟨rfl, rfl⟩ := Prod.mk.inj (Option.some.inj h)
    exact ⟨rfl, drawn, rfl⟩
  | failed message => cases h
  | lost drawn message => cases h

theorem insert_cases {email hash : Text} {o : Outcome} {r : Except Failure MerchantRow}
    (h : Accounts.act lib (.merchantInsert email hash) o w = some (r, w')) :
    w'.now = w.now ∧
      ((w'.merchants = w.merchants ∧ ∃ message, r = .error (.db (.connection message))) ∨
      ∃ id inserted, Merchants.Inserts w.merchants id email hash inserted w'.merchants ∧
        (r = inserted.mapError .db ∨ ∃ message, r = .error (.db (.connection message)))) := by
  cases o with
  | done id =>
    obtain ⟨⟨inserted, merchants⟩, hx, heq⟩ := Option.map_eq_some_iff.mp h
    obtain ⟨rfl, rfl⟩ := Prod.mk.inj heq
    exact ⟨rfl, .inr ⟨id, inserted, Merchants.inserts hx, .inl rfl⟩⟩
  | failed message =>
    obtain ⟨rfl, rfl⟩ := Prod.mk.inj (Option.some.inj h)
    exact ⟨rfl, .inl ⟨rfl, message, rfl⟩⟩
  | lost id message =>
    obtain ⟨⟨inserted, merchants⟩, hx, heq⟩ := Option.map_eq_some_iff.mp h
    obtain ⟨rfl, rfl⟩ := Prod.mk.inj heq
    exact ⟨rfl, .inr ⟨id, inserted, Merchants.inserts hx, .inr ⟨message, rfl⟩⟩⟩

theorem Accounts.acts {s : Op} {o : Outcome} {r : Except Failure (Answer s)}
    (h : Accounts.act lib s o w = some (r, w')) : Accounts.Acts w s w' := by
  cases s with
  | bcryptHash plain => exact .keeps (compute_cases h).1
  | bcryptCompare plain hash => exact .keeps (compute_cases h).1
  | jwtSign payload => exact .keeps (compute_cases h).1
  | jwtVerify token => exact .keeps (compute_cases h).1
  | merchantFindByEmail email => exact .keeps (select_cases h).1
  | merchantFindById id => exact .keeps (select_cases h).1
  | merchantInsert email hash =>
    obtain ⟨hnow, ⟨hsame, -⟩ | ⟨id, inserted, hinserts, -⟩⟩ := insert_cases h
    · refine .keeps ?_
      cases w
      cases w'
      simp_all
    · generalize hm : w'.merchants = merchants at hinserts
      cases hinserts with
      | added id_new rows => exact .adds rfl hnow (hm ▸ rows)
      | taken email_old =>
        refine .keeps ?_
        cases w
        cases w'
        simp_all

/-- An action tells the truth. -/
theorem holds_act {s : Op} {o : Outcome} {r : Except Failure (Answer s)}
    (h : Accounts.act lib s o w = some (r, w')) : Holds lib w' ⟨s, r⟩ := by
  cases s with
  | bcryptHash plain =>
    obtain ⟨-, salt, rfl⟩ := compute_cases h
    rintro hash ⟨⟩
    exact ⟨salt, rfl⟩
  | bcryptCompare plain hash =>
    obtain ⟨-, _, rfl⟩ := compute_cases h
    rintro ok ⟨⟩
    rfl
  | jwtSign payload =>
    obtain ⟨rfl, _, rfl⟩ := compute_cases h
    rintro token ⟨⟩
    exact ⟨_, le_rfl, rfl⟩
  | jwtVerify token =>
    obtain ⟨rfl, _, rfl⟩ := compute_cases h
    rintro decoded ⟨⟩
    exact ⟨_, le_rfl, rfl⟩
  | merchantFindByEmail email =>
    rintro row rfl
    obtain ⟨rfl, hr | ⟨message, hr⟩⟩ := select_cases h
    · exact Merchants.findByEmail_eq_some.mp (Except.ok.inj hr).symm
    · cases hr
  | merchantFindById id =>
    rintro row rfl
    obtain ⟨rfl, hr | ⟨message, hr⟩⟩ := select_cases h
    · exact Merchants.findById_eq_some.mp (Except.ok.inj hr).symm
    · cases hr
  | merchantInsert email hash =>
    have hlost : ∀ message, Holds lib w' ⟨.merchantInsert email hash,
        .error (.db (.connection message))⟩ := by
      intro message
      constructor
      · rintro row ⟨⟩
      · rintro ⟨⟩
    obtain ⟨-, ⟨-, message, rfl⟩ | ⟨id, inserted, hinserts, rfl | ⟨message, rfl⟩⟩⟩ := insert_cases h
    · exact hlost message
    · generalize hm : w'.merchants = merchants at hinserts
      constructor
      · rintro row hrow
        cases hinserts with
        | added id_new rows =>
          cases hrow
          refine ⟨?_, rfl, rfl⟩
          rw [hm, rows]
          exact List.mem_append_right _ List.mem_cons_self
        | taken email_old => cases hrow
      · intro herror
        cases hinserts with
        | added id_new rows => cases herror
        | taken email_old =>
          obtain ⟨row, hrow, hemail⟩ := email_old
          exact ⟨row, hm ▸ hrow, hemail⟩
    · exact hlost message

end Act

/-! ## The table grows -/

structure Accounts.Grows (w w' : Accounts) : Prop where
  now : w.now ≤ w'.now
  rows : w.merchants.rows ⊆ w'.merchants.rows

theorem Accounts.Grows.seconds {w w' : Accounts} (h : w.Grows w') : w.seconds ≤ w'.seconds :=
  Nat.div_le_div_right h.now

theorem Accounts.Acts.grows {w w' : Accounts} {s : Op} (h : w.Acts s w') : w.Grows w' := by
  cases h with
  | keeps same =>
    subst same
    exact ⟨le_rfl, List.Subset.refl _⟩
  | adds op now rows => exact ⟨now.ge, rows ▸ List.subset_append_left _ _⟩

/-- What was so stays so. -/
theorem Holds.grows {lib : Libraries} {w w' : Accounts} (hgrows : w.Grows w') {d : Done}
    (h : Holds lib w d) : Holds lib w' d := by
  obtain ⟨s, r⟩ := d
  cases s with
  | bcryptHash plain => exact h
  | bcryptCompare plain hash => exact h
  | jwtSign payload =>
    intro token htoken
    obtain ⟨iat, hiat, hsign⟩ := h token htoken
    exact ⟨iat, hiat.trans hgrows.seconds, hsign⟩
  | jwtVerify token =>
    intro decoded hdecoded
    obtain ⟨now, hnow, hverify⟩ := h decoded hdecoded
    exact ⟨now, hnow.trans hgrows.seconds, hverify⟩
  | merchantInsert email hash =>
    constructor
    · intro row hrow
      exact ⟨hgrows.rows (h.1 row hrow).1, (h.1 row hrow).2⟩
    · intro herror
      obtain ⟨row, hrow, hemail⟩ := h.2 herror
      exact ⟨row, hgrows.rows hrow, hemail⟩
  | merchantFindByEmail email =>
    intro row hrow
    exact ⟨hgrows.rows (h row hrow).1, (h row hrow).2⟩
  | merchantFindById id =>
    intro row hrow
    exact ⟨hgrows.rows (h row hrow).1, (h row hrow).2⟩

/-! ## One step -/

/-- The states reached from the empty table by steps that satisfy `ok`. -/
abbrev Guests.Reach (lib : Libraries) (ok : Guests → Turn → Prop) (s : Guests) : Prop :=
  Runs (device lib) program ok (Pool.begin .empty) s

/-- A token that a login has signed. -/
def Guests.Issued (s : Guests) (token : Text) : Prop :=
  ∃ n ∈ s.nodes, ∃ payload, ⟨.jwtSign payload, .ok token⟩ ∈ n.log

/-- The token of a request to a protected route. -/
def Request.presents : Request → Option Text
  | .me header | .guarded header => (tokenOf header).toOption
  | _ => none

/-- Nobody else knows `JWT_SECRET`: a token that comes with a request and would
verify has been signed here. -/
def Genuine (lib : Libraries) (s : Guests) (l : Turn) : Prop :=
  ∀ j token, l = .start j → j.presents = some token →
    (∃ now payload, lib.verify token now = .ok payload) → s.Issued token

section Step

variable {lib : Libraries} {s t : Guests} {l : Turn}

theorem world_grows (h : Move (discipline lib) s l t) : s.world.Grows t.world := by
  have hrefl : s.world.Grows s.world := ⟨le_rfl, List.Subset.refl _⟩
  cases h with
  | start born =>
    obtain rfl := Option.some.inj born
    exact hrefl
  | run here script knows may acts => exact (Accounts.acts acts).grows
  | crash here live => exact hrefl
  | event happens =>
    obtain rfl := Option.some.inj happens
    exact ⟨Nat.le_add_right _ _, List.Subset.refl _⟩

theorem Guests.Issued.move {token : Text} (h : s.Issued token)
    (hmove : Move (discipline lib) s l t) : t.Issued token := by
  obtain ⟨n, hn, payload, hsigned⟩ := h
  obtain ⟨m, hm, -, hlog⟩ := hmove.persists hn
  exact ⟨m, hm, payload, hlog.subset hsigned⟩

/-- What is known in every state: the records are true, they keep to the program,
and the tokens that are presented and verify have been issued. -/
structure Known (lib : Libraries) (s : Guests) : Prop where
  holds : ∀ n ∈ s.nodes, ∀ d ∈ n.log, Holds lib s.world d
  kept : (discipline lib).Kept s

theorem Known.move (hs : Known lib s) (h : Move (discipline lib) s l t) : Known lib t where
  holds := h.entries (fun _ hd => hd.grows (world_grows h)) holds_act hs.holds
  kept := hs.kept.move h

theorem known_begin : Known lib (Pool.begin .empty) := by
  constructor
  · intro n hn
    cases hn
  · exact Discipline.kept_begin _ _

theorem known {ok : Guests → Turn → Prop} (h : s.Reach lib ok) : Known lib s :=
  Runs.invariant (K := discipline lib) (I := Known lib) (fun hs hmove _ => hs.move hmove)
    (Discipline.follows_begin _ .empty) h known_begin

/-- Where every request ends. -/
theorem ended {ok : Guests → Turn → Prop} (h : s.Reach lib ok) : s.Obeys gives may ends throws :=
  (Discipline.follows_begin (discipline lib) .empty).obeys_runs program_issues h
    (Pool.obeys_begin _)

/-! ## Sessions -/

/-- The tokens that are presented and would verify have been issued. -/
def Presented (lib : Libraries) (s : Guests) : Prop :=
  ∀ n ∈ s.nodes, ∀ token, n.job.presents = some token →
    (∃ now payload, lib.verify token now = .ok payload) → s.Issued token

theorem Presented.move (hs : Presented lib s) (h : Move (discipline lib) s l t)
    (hgenuine : Genuine lib s l) : Presented lib t := by
  intro m hm token htoken hverify
  refine Guests.Issued.move ?_ h
  cases h.grown hm with
  | old mem job log => exact hs _ mem token (job ▸ htoken) hverify
  | born label born log => exact hgenuine _ token label htoken hverify
  | acted label here knows may acts job log =>
    exact hs _ (List.mem_of_getElem? here) token (job ▸ htoken) hverify

theorem presented (h : s.Reach lib (Genuine lib)) : Presented lib s := by
  refine Runs.invariant (K := discipline lib) (I := Presented lib)
    (fun hs hmove hgenuine => hs.move hmove hgenuine) (Discipline.follows_begin _ .empty) h ?_
  intro n hn
  cases hn

/-- A login with the password of the account has signed the token. -/
structure Session (lib : Libraries) (s : Guests) (token : Text) (payload : AuthTokenPayload)
    (iat : ℕ) : Prop where
  signed : token = lib.sign payload iat (iat + EXPIRES_IN)
  past : iat ≤ s.world.seconds
  login : ∃ n ∈ s.nodes, ∃ dto row, n.job = .login dto ∧
    [foundBy dto row, comparedBy dto row true, ⟨.jwtSign payload, .ok token⟩] <+: n.log ∧
    payload = ⟨row.id, row.email⟩ ∧ row ∈ s.world.merchants.rows ∧
    row.email = toLowerCase dto.email ∧ lib.compare dto.password row.passwordHash = true

theorem Known.session (hs : Known lib s) {n : Guest} (hn : n ∈ s.nodes)
    {payload : AuthTokenPayload} {token : Text}
    (hsigned : (⟨.jwtSign payload, .ok token⟩ : Done) ∈ n.log) :
    ∃ iat, Session lib s token payload iat := by
  obtain ⟨iat, hpast, htoken⟩ := hs.holds n hn _ hsigned token rfl
  refine ⟨iat, htoken, hpast, n, hn, ?_⟩
  obtain ⟨log, rest, hlog⟩ := List.append_of_mem hsigned
  have hmay := hs.kept n hn log _ rest hlog
  cases hjob : n.job with
  | login dto =>
    rw [hjob] at hmay
    obtain ⟨row, rfl, rfl⟩ := hmay
    have hfound := hs.holds n hn (foundBy dto row) (by simp [hlog]) row rfl
    have hcompared := hs.holds n hn (comparedBy dto row true) (by simp [hlog]) true rfl
    refine ⟨dto, row, rfl, ?_, rfl, hfound.1, hfound.2, hcompared.symm⟩
    exact ⟨rest, by simp [hlog]⟩
  | register dto =>
    rw [hjob] at hmay
    exact hmay.elim
  | me header =>
    rw [hjob] at hmay
    exact hmay.elim
  | guarded header =>
    rw [hjob] at hmay
    exact hmay.elim

/-- A token that verifies is that of a session, until its hour is over. -/
theorem verified_session (hlib : lib.Documented) (hs : Known lib s) {token : Text}
    (hissued : s.Issued token) {now : ℕ} {payload : AuthTokenPayload}
    (hverify : lib.verify token now = .ok payload) :
    ∃ iat, Session lib s token payload iat ∧ now < iat + EXPIRES_IN := by
  obtain ⟨n, hn, payload', hsigned⟩ := hissued
  obtain ⟨iat, hsession⟩ := hs.session hn hsigned
  rw [hsession.signed, hlib.verify_sign] at hverify
  split at hverify
  · rename_i hnow
    obtain rfl := Except.ok.inj hverify
    exact ⟨iat, hsession, hnow⟩
  · cases hverify

/-- A token that is verified has been presented. -/
theorem may_verify {j : Request} {log : List Done} {token : Text}
    (h : may j log (.jwtVerify token)) : j.presents = some token := by
  cases j with
  | register dto => exact h.elim
  | login dto => exact h.elim
  | me header =>
    show (tokenOf header).toOption = some token
    rw [h.2]
    rfl
  | guarded header =>
    show (tokenOf header).toOption = some token
    rw [h.2]
    rfl

/-- Whoever the middleware is about to let pass has logged in with the password of
the account, less than an hour ago. -/
theorem admitted_logged_in (hlib : lib.Documented) (h : s.Reach lib (Genuine lib)) {n : Guest}
    (hn : n ∈ s.nodes) {token : Text} (hnext : n.next = some (.jwtVerify token))
    {payload : AuthTokenPayload} (hverify : lib.verify token s.world.seconds = .ok payload) :
    ∃ iat, Session lib s token payload iat ∧ s.world.seconds < iat + EXPIRES_IN := by
  have hfollows := (Discipline.follows_begin (discipline lib) .empty).runs h
  have hmay : may n.job n.log (.jwtVerify token) := by
    unfold Member.next at hnext
    split at hnext
    · rename_i st k hscript
      obtain rfl := Option.some.inj hnext
      exact (hfollows.obeys n hn _ hscript).1
    · cases hnext
  have hissued := presented h n hn token (may_verify hmay) ⟨_, payload, hverify⟩
  exact verified_session hlib (known h) hissued hverify

/-- Who has been let past the middleware has had a session. -/
theorem Known.seen_session (hlib : lib.Documented) (hs : Known lib s)
    (hpresented : Presented lib s) {n : Guest} (hn : n ∈ s.nodes) {token : Text}
    {payload : AuthTokenPayload} (hverified : verifiedBy token payload ∈ n.log) :
    ∃ iat, Session lib s token payload iat := by
  obtain ⟨now, -, hverify⟩ := hs.holds n hn _ hverified _ rfl
  obtain ⟨log, rest, hlog⟩ := List.append_of_mem hverified
  have hissued := hpresented n hn token (may_verify (hs.kept n hn log _ rest hlog))
    ⟨now, payload, hverify.symm⟩
  obtain ⟨iat, hsession, -⟩ := verified_session hlib hs hissued hverify.symm
  exact ⟨iat, hsession⟩

/-- So there is an account. -/
theorem Session.account {token : Text} {payload : AuthTokenPayload} {iat : ℕ}
    (h : Session lib s token payload iat) : (⟨payload.sub, payload.email⟩ : PublicMerchant) ∈
      s.world.merchants.rows.map toPublicMerchant := by
  obtain ⟨_, -, _, row, -, -, rfl, hrow, -⟩ := h.login
  exact List.mem_map_of_mem hrow

/-- The account of a caller is never missing. -/
def Present (s : Guests) : Prop :=
  ∀ n ∈ s.nodes, ∀ id, (⟨.merchantFindById id, .ok none⟩ : Done) ∉ n.log

theorem Present.move (hlib : lib.Documented) (hs : Present s) (hknown : Known lib s)
    (hpresented : Presented lib s) (h : Move (discipline lib) s l t) : Present t := by
  intro m hm id hmissing
  cases h.grown hm with
  | old mem job log => exact hs _ mem id (log ▸ hmissing)
  | born label born log =>
    rw [log] at hmissing
    cases hmissing
  | acted label here knows may acts job log =>
    rename_i i o n st r
    rw [log] at hmissing
    rcases List.mem_append.mp hmissing with hold | hnew
    · exact hs _ (List.mem_of_getElem? here) id hold
    · obtain ⟨rfl, heq⟩ := Did.mk.inj (List.mem_singleton.mp hnew)
      obtain rfl := eq_of_heq heq
      have hn := List.mem_of_getElem? here
      cases hjob : n.job with
      | me header =>
        rw [hjob] at may
        obtain ⟨token, payload, hlog, -, rfl⟩ := may
        obtain ⟨iat, hsession⟩ := hknown.seen_session hlib hpresented hn
          (hlog ▸ List.mem_singleton_self _)
        obtain ⟨row, hrow, hpublic⟩ := List.mem_map.mp hsession.account
        have hid : row.id = payload.sub := congrArg PublicMerchant.id hpublic
        have hfound := Merchants.findById_eq_some.mpr ⟨hrow, hid⟩
        obtain ⟨-, hr | ⟨message, hr⟩⟩ := select_cases acts
        · rw [hfound] at hr
          cases hr
        · cases hr
      | register dto =>
        rw [hjob] at may
        exact may.elim
      | login dto =>
        rw [hjob] at may
        exact may.elim
      | guarded header =>
        rw [hjob] at may
        exact may.elim

theorem present (hlib : lib.Documented) (h : s.Reach lib (Genuine lib)) : Present s := by
  have hall : Present s ∧ Known lib s ∧ Presented lib s := by
    refine Runs.invariant (K := discipline lib)
      (I := fun s => Present s ∧ Known lib s ∧ Presented lib s) ?_
      (Discipline.follows_begin _ .empty) h ⟨?_, known_begin, ?_⟩
    · rintro s t l ⟨hpresent, hknown, hpresented⟩ hmove hgenuine
      exact ⟨hpresent.move hlib hknown hpresented hmove, hknown.move hmove,
        hpresented.move hmove hgenuine⟩
    · intro n hn
      cases hn
    · intro n hn
      cases hn
  exact hall.1

/-- A response is the reply's, or the error's. -/
theorem response_cases {ok : Guests → Turn → Prop} (h : s.Reach lib ok) {n : Guest}
    (hn : n ∈ s.nodes) {res : Response} (hres : n.response = some res) :
    (∃ reply, ends n.job n.log reply ∧ authController n.job reply = some res) ∨
      ∃ e, throws n.job n.log e ∧ res = errorHandler e := by
  have hended := ended h n hn
  unfold Guest.response at hres
  split at hres
  · rename_i reply hscript
    exact .inl ⟨reply, hended _ hscript, hres⟩
  · rename_i e hscript
    exact .inr ⟨e, hended _ hscript, (Option.some.inj hres).symm⟩
  · cases hres

/-- A caller who is let past the middleware to `GET /auth/me` finds the account of
the session there, unless one of its statements has failed. -/
theorem caller_found (hlib : lib.Documented) (h : s.Reach lib (Genuine lib)) {n : Guest}
    (hn : n ∈ s.nodes) {header : Option Text} (hjob : n.job = .me header) {token : Text}
    {payload : AuthTokenPayload} (hverified : verifiedBy token payload ∈ n.log) {res : Response}
    (hres : n.response = some res) :
    res = ⟨200, .merchant ⟨payload.sub, payload.email⟩⟩ ∨
      res.status = 500 ∧ ∃ f, statementFailed n.log f := by
  have hknown := known h
  obtain ⟨reply, hends, hreply⟩ | ⟨e, hthrows, rfl⟩ := response_cases h hn hres
  · rw [hjob] at hends hreply
    obtain ⟨token', payload', row, -, hlog, rfl⟩ := hends
    have hsame : verifiedBy token payload = verifiedBy token' payload' := by
      rw [hlog] at hverified
      rcases List.mem_cons.mp hverified with heq | htail
      · exact heq
      · cases List.mem_singleton.mp htail
    cases hsame
    -- The row that is found is the row of the session.
    obtain ⟨iat, hsession⟩ := hknown.seen_session hlib (presented h) hn hverified
    obtain ⟨row', hrow', hpublic⟩ := List.mem_map.mp hsession.account
    have hfound := hknown.holds n hn ⟨.merchantFindById payload.sub, .ok (some row)⟩
      (by simp [hlog]) row rfl
    have hid : row'.id = row.id := (congrArg PublicMerchant.id hpublic).trans hfound.2.symm
    obtain rfl := List.inj_on_of_nodup_map s.world.merchants.ids hrow' hfound.1 hid
    rw [hpublic] at hreply
    exact .inl (Option.some.inj hreply).symm
  · rw [hjob] at hthrows
    cases e with
    | db f => exact .inr ⟨rfl, f, hthrows⟩
    | app e =>
      rcases hthrows with hnone | ⟨id, hmissing⟩
      · exact absurd hverified (hnone token payload)
      · exact absurd hmissing (present hlib h n hn id)

end Step

/-! ## Registrations -/

section Registrations

variable {lib : Libraries} {s t : Guests} {l : Turn} {ok : Guests → Turn → Prop}

/-- A registration has inserted the row. -/
def Guest.Inserted (n : Guest) (row : MerchantRow) : Prop :=
  ∃ email hash, (⟨.merchantInsert email hash, .ok row⟩ : Done) ∈ n.log

/-- No two registrations have inserted one row. -/
def Apart (s : Guests) : Prop :=
  ∀ (i j : ℕ) (n m : Guest) (row : MerchantRow), s.nodes[i]? = some n → s.nodes[j]? = some m →
    n.Inserted row → m.Inserted row → i = j

theorem Known.inserted (hs : Known lib s) {n : Guest} (hn : n ∈ s.nodes) {row : MerchantRow}
    (h : n.Inserted row) : row ∈ s.world.merchants.rows := by
  obtain ⟨email, hash, hmem⟩ := h
  exact ((hs.holds n hn _ hmem).1 row rfl).1

/-- A row that is inserted is new. -/
theorem insert_new (lib : Libraries) {email hash : Text} {o : Outcome} {w w' : Accounts}
    {row : MerchantRow}
    (h : Accounts.act lib (.merchantInsert email hash) o w = some (.ok row, w')) :
    row ∉ w.merchants.rows := by
  intro hrow
  obtain ⟨-, ⟨-, message, hr⟩ | ⟨id, inserted, hinserts, hr | ⟨message, hr⟩⟩⟩ := insert_cases h
  · cases hr
  · cases inserted with
    | ok row' =>
      cases hr
      cases hinserts with
      | added id_new rows => exact id_new ⟨_, hrow, rfl⟩
    | error f => cases hr
  · cases hr

theorem Apart.move (hs : Apart s) (hknown : Known lib s) (h : Move (discipline lib) s l t) :
    Apart t := by
  -- A row that has been inserted is an old one, or the one of this step.
  have hcases : ∀ {k : ℕ} {g : Guest} {row : MerchantRow}, t.nodes[k]? = some g →
      g.Inserted row → (∃ g' : Guest, s.nodes[k]? = some g' ∧ g'.Inserted row) ∨
        row ∉ s.world.merchants.rows ∧ ∃ o, l = .run k o := by
    rintro k g row hk ⟨email, hash, hmem⟩
    cases h.grownAt hk with
    | old here job log => exact .inl ⟨_, here, email, hash, log ▸ hmem⟩
    | born last label log =>
      rw [log] at hmem
      cases hmem
    | acted label here knows may acts job log =>
      rw [log] at hmem
      rcases List.mem_append.mp hmem with hold | hnew
      · exact .inl ⟨_, here, email, hash, hold⟩
      · obtain ⟨rfl, heq⟩ := Did.mk.inj (List.mem_singleton.mp hnew)
        obtain rfl := eq_of_heq heq
        exact .inr ⟨insert_new lib acts, _, label⟩
  intro i j n m row hi hj hn hm
  rcases hcases hi hn with ⟨n', hi', hn'⟩ | ⟨hnew, o, hl⟩
  · rcases hcases hj hm with ⟨m', hj', hm'⟩ | ⟨hnew, -⟩
    · exact hs i j n' m' row hi' hj' hn' hm'
    · exact absurd (hknown.inserted (List.mem_of_getElem? hi') hn') hnew
  · rcases hcases hj hm with ⟨m', hj', hm'⟩ | ⟨-, o', hl'⟩
    · exact absurd (hknown.inserted (List.mem_of_getElem? hj') hm') hnew
    · rw [hl] at hl'
      exact (Label.run.inj hl').1

/-- Every account is of a registration. -/
def Registered (s : Guests) : Prop :=
  ∀ row ∈ s.world.merchants.rows, ∃ n ∈ s.nodes, ∃ dto, n.job = .register dto ∧
    row.email = toLowerCase dto.email ∧ hashedBy dto row.passwordHash ∈ n.log

theorem Registered.move (hs : Registered s) (h : Move (discipline lib) s l t) :
    Registered t := by
  intro row hrow
  have hold : row ∈ s.world.merchants.rows → ∃ n ∈ t.nodes, ∃ dto, n.job = .register dto ∧
      row.email = toLowerCase dto.email ∧ hashedBy dto row.passwordHash ∈ n.log := by
    intro hmem
    obtain ⟨n, hn, dto, hjob, hemail, hhash⟩ := hs row hmem
    obtain ⟨m, hm, hsame, hlog⟩ := h.persists hn
    exact ⟨m, hm, dto, hsame.trans hjob, hemail, hlog.subset hhash⟩
  cases h with
  | start born =>
    obtain rfl := Option.some.inj born
    exact hold hrow
  | crash here live => exact hold hrow
  | event happens =>
    obtain rfl := Option.some.inj happens
    exact hold hrow
  | run here script knows may acts =>
    cases Accounts.acts acts with
    | keeps same =>
      subst same
      exact hold hrow
    | adds op now rows =>
      subst op
      rw [rows] at hrow
      rcases List.mem_append.mp hrow with hmem | hnew
      · exact hold hmem
      · obtain rfl := List.mem_singleton.mp hnew
        rename_i n _ _ _ _ _ _
        refine ⟨_, List.mem_set (List.getElem?_eq_some_iff.mp here).1 _, ?_⟩
        cases hjob : n.job with
        | register dto =>
          rw [hjob] at may
          obtain ⟨hlog, hemail⟩ := may
          exact ⟨dto, rfl, hemail, by simp [hlog]⟩
        | login dto =>
          rw [hjob] at may
          exact may.elim
        | me header =>
          rw [hjob] at may
          exact may.elim
        | guarded header =>
          rw [hjob] at may
          exact may.elim

theorem registrations (h : s.Reach lib ok) : Apart s ∧ Registered s := by
  have hall : Known lib s ∧ Apart s ∧ Registered s := by
    refine Runs.invariant (K := discipline lib) (I := fun s => Known lib s ∧ Apart s ∧ Registered s)
      ?_ (Discipline.follows_begin _ .empty) h ⟨known_begin, ?_, ?_⟩
    · rintro s t l ⟨hknown, hapart, hregistered⟩ hmove -
      exact ⟨hknown.move hmove, hapart.move hknown hmove, hregistered.move hmove⟩
    · intro i j n m row hi
      cases hi
    · intro row hrow
      cases hrow
  exact hall.2

/-- A registration that is answered 201. -/
theorem created_inserted (h : s.Reach lib ok) {n : Guest} (hn : n ∈ s.nodes) {dto : RegisterDto}
    (hjob : n.job = .register dto) {a : PublicMerchant}
    (hres : n.response = some ⟨201, .merchant a⟩) : ∃ hash row,
      n.log = [hashedBy dto hash, ⟨.merchantInsert (toLowerCase dto.email) hash, .ok row⟩] ∧
        a = toPublicMerchant row := by
  obtain ⟨reply, hends, hreply⟩ | ⟨e, -, herror⟩ := response_cases h hn hres
  · rw [hjob] at hends hreply
    obtain ⟨hash, row, hlog, rfl⟩ := hends
    cases hreply
    exact ⟨hash, row, hlog, rfl⟩
  · cases e with
    | db f => cases herror
    | app e =>
      cases e <;> cases herror

/-- An email, however it is spelled, has one account: of the registrations that
race for it one is answered 201, and one that is refused finds it taken. Every
account is of a registration, with its email and its password. -/
structure OneAccount (s : Guests) : Prop where
  created : ∀ (i j : ℕ) (n m : Guest) (dto dto' : RegisterDto) (a b : PublicMerchant),
    s.nodes[i]? = some n → s.nodes[j]? = some m → n.job = .register dto → m.job = .register dto' →
      n.response = some ⟨201, .merchant a⟩ → m.response = some ⟨201, .merchant b⟩ →
        toLowerCase dto.email = toLowerCase dto'.email → i = j
  refused : ∀ (n : Guest) (dto : RegisterDto) (res : Response), n ∈ s.nodes →
    n.job = .register dto → n.response = some res → res.status = 409 →
      ∃ row ∈ s.world.merchants.rows, row.email = toLowerCase dto.email
  registered : Registered s

theorem one_account (h : s.Reach lib ok) : OneAccount s := by
  have hknown := known h
  refine ⟨?_, ?_, (registrations h).2⟩
  · intro i j n m dto dto' a b hi hj hn hm ha hb hemail
    have hrow : ∀ {k : ℕ} {g : Guest} {dto : RegisterDto} {a}, s.nodes[k]? = some g →
        g.job = .register dto → g.response = some ⟨201, .merchant a⟩ →
        ∃ row ∈ s.world.merchants.rows, row.email = toLowerCase dto.email ∧ g.Inserted row := by
      intro k g dto a hk hjob hres
      have hmem := List.mem_of_getElem? hk
      obtain ⟨hash, row, hlog, -⟩ := created_inserted h hmem hjob hres
      have hinserted : (⟨.merchantInsert (toLowerCase dto.email) hash, .ok row⟩ : Done) ∈
          g.log := by simp [hlog]
      have hholds := (hknown.holds g hmem _ hinserted).1 row rfl
      exact ⟨row, hholds.1, hholds.2.1, _, hash, hinserted⟩
    obtain ⟨row, hmem, hrowEmail, hinserted⟩ := hrow hi hn ha
    obtain ⟨row', hmem', hrowEmail', hinserted'⟩ := hrow hj hm hb
    obtain rfl := Merchants.eq_of_email hmem hmem' (by rw [hrowEmail, hrowEmail', hemail])
    exact (registrations h).1 i j n m row hi hj hinserted hinserted'
  · intro n dto res hn hjob hres hstatus
    obtain ⟨reply, hends, hreply⟩ | ⟨e, hthrows, rfl⟩ := response_cases h hn hres
    · rw [hjob] at hends hreply
      obtain ⟨hash, row, -, rfl⟩ := hends
      cases hreply
      cases hstatus
    · rw [hjob] at hthrows
      cases e with
      | db f => cases hstatus
      | app e =>
        obtain ⟨-, hash, hlog⟩ := hthrows
        have hmem : (⟨.merchantInsert (toLowerCase dto.email) hash,
            .error (.db .uniqueViolation)⟩ : Done) ∈ n.log := by simp [hlog]
        exact (hknown.holds n hn _ hmem).2 rfl

/-- Whoever looks the account up from now on finds it. -/
structure Findable (row : MerchantRow) (k₀ : ℕ) (t : Guests) : Prop where
  here : row ∈ t.world.merchants.rows
  late : k₀ ≤ t.nodes.length
  found : ∀ (k : ℕ) (n : Guest), k₀ ≤ k → t.nodes[k]? = some n → ∀ found,
    (⟨.merchantFindByEmail row.email, .ok found⟩ : Done) ∈ n.log → found = some row

theorem Findable.move {row : MerchantRow} {k₀ : ℕ} (hs : Findable row k₀ s)
    (h : Move (discipline lib) s l t) : Findable row k₀ t where
  here := (world_grows h).rows hs.here
  late := by
    refine hs.late.trans ?_
    cases h <;> simp
  found := by
    intro k n hk hn found hmem
    cases h.grownAt hn with
    | old here job log => exact hs.found k _ hk here found (log ▸ hmem)
    | born last label log =>
      rw [log] at hmem
      cases hmem
    | acted label here knows may acts job log =>
      rw [log] at hmem
      rcases List.mem_append.mp hmem with hold | hnew
      · exact hs.found k _ hk here found hold
      · obtain ⟨rfl, heq⟩ := Did.mk.inj (List.mem_singleton.mp hnew)
        obtain rfl := eq_of_heq heq
        obtain ⟨-, hr | ⟨message, hr⟩⟩ := select_cases acts
        · rw [Except.ok.inj hr]
          exact Merchants.findByEmail_eq_some.mpr ⟨hs.here, rfl⟩
        · cases hr

/-- The tokens that are signed from now on carry the second of their signature. -/
structure Stamped (lib : Libraries) (since k₀ : ℕ) (t : Guests) : Prop where
  now : since ≤ t.world.seconds
  late : k₀ ≤ t.nodes.length
  signed : ∀ (k : ℕ) (n : Guest), k₀ ≤ k → t.nodes[k]? = some n → ∀ payload token,
    (⟨.jwtSign payload, .ok token⟩ : Done) ∈ n.log → ∃ iat, since ≤ iat ∧ iat ≤ t.world.seconds ∧
      token = lib.sign payload iat (iat + EXPIRES_IN)

theorem Stamped.move {since k₀ : ℕ} (hs : Stamped lib since k₀ s)
    (h : Move (discipline lib) s l t) : Stamped lib since k₀ t where
  now := hs.now.trans (world_grows h).seconds
  late := by
    refine hs.late.trans ?_
    cases h <;> simp
  signed := by
    intro k n hk hn payload token hmem
    have hold : ∀ {m : Guest}, s.nodes[k]? = some m →
        (⟨.jwtSign payload, .ok token⟩ : Done) ∈ m.log → ∃ iat, since ≤ iat ∧
          iat ≤ t.world.seconds ∧ token = lib.sign payload iat (iat + EXPIRES_IN) := by
      intro m hm hmem
      obtain ⟨iat, hsince, hpast, htoken⟩ := hs.signed k m hk hm payload token hmem
      exact ⟨iat, hsince, hpast.trans (world_grows h).seconds, htoken⟩
    cases h.grownAt hn with
    | old here job log => exact hold here (log ▸ hmem)
    | born last label log =>
      rw [log] at hmem
      cases hmem
    | acted label here knows may acts job log =>
      rw [log] at hmem
      rcases List.mem_append.mp hmem with hmem | hnew
      · exact hold here hmem
      · obtain ⟨rfl, heq⟩ := Did.mk.inj (List.mem_singleton.mp hnew)
        obtain rfl := eq_of_heq heq
        obtain ⟨-, _, htoken⟩ := compute_cases acts
        exact ⟨s.world.seconds, hs.now, (world_grows h).seconds, Except.ok.inj htoken⟩

/-- Who has registered can log in from then on, with the email in any spelling, unless
one of the statements fails. The token is issued in a second of the login, and is good
for an hour from then. -/
theorem registered_logs_in (hlib : lib.Documented) (h : s.Reach lib ok)
    {ok' : Guests → Turn → Prop} (hthen : Runs (device lib) program ok' s t) {r : Guest}
    (hr : r ∈ s.nodes) {dto : RegisterDto} (hregister : r.job = .register dto) {a : PublicMerchant}
    (hcreated : r.response = some ⟨201, .merchant a⟩) {k : ℕ} {n : Guest} (hk : s.nodes.length ≤ k)
    (hn : t.nodes[k]? = some n) {dto' : LoginDto} (hlogin : n.job = .login dto')
    (hemail : toLowerCase dto'.email = toLowerCase dto.email)
    (hpassword : dto'.password = dto.password) {res : Response} (hres : n.response = some res) :
    (res.status = 500 ∧ ∃ f, statementFailed n.log f) ∨
      ∃ token, res = ⟨200, .session token a⟩ ∧
        ∃ iat, s.world.seconds ≤ iat ∧ iat ≤ t.world.seconds ∧ ∀ now, lib.verify token now =
          if now < iat + EXPIRES_IN then .ok ⟨a.id, a.email⟩ else .error .tokenExpired := by
  obtain ⟨hash, row, hlog, rfl⟩ := created_inserted h hr hregister hcreated
  have hknown := known h
  have hrow := ((hknown.holds r hr ⟨.merchantInsert (toLowerCase dto.email) hash, .ok row⟩
    (by simp [hlog])).1 row rfl)
  obtain ⟨salt, hhash⟩ := hknown.holds r hr (hashedBy dto hash) (by simp [hlog]) hash rfl
  have hreach : t.Reach lib (fun _ _ => True) :=
    (h.mono (fun _ _ _ => trivial)).trans (hthen.mono (fun _ _ _ => trivial))
  have hknown' := known hreach
  have hmem := List.mem_of_getElem? hn
  have hfindable : Findable row s.nodes.length t := by
    refine Runs.invariant (K := discipline lib) (I := Findable row s.nodes.length)
      (fun hs hmove _ => hs.move hmove) ((Discipline.follows_begin _ .empty).runs h) hthen
      ⟨hrow.1, le_rfl, ?_⟩
    intro k n hk hn
    exact absurd (List.getElem?_eq_some_iff.mp hn).1 (not_lt.mpr hk)
  have hstamped : Stamped lib s.world.seconds s.nodes.length t := by
    refine Runs.invariant (K := discipline lib) (I := Stamped lib s.world.seconds s.nodes.length)
      (fun hs hmove _ => hs.move hmove) ((Discipline.follows_begin _ .empty).runs h) hthen
      ⟨le_rfl, le_rfl, ?_⟩
    intro k n hk hn
    exact absurd (List.getElem?_eq_some_iff.mp hn).1 (not_lt.mpr hk)
  have hfound : ∀ found, (⟨.merchantFindByEmail (toLowerCase dto'.email), .ok found⟩ : Done) ∈
      n.log → found = some row := by
    intro found hfind
    rw [hemail, ← hrow.2.1] at hfind
    exact hfindable.found k n hk hn found hfind
  obtain ⟨reply, hends, hreply⟩ | ⟨e, hthrows, rfl⟩ := response_cases hreach hmem hres
  · rw [hlogin] at hends hreply
    obtain ⟨row', token, hlog', rfl⟩ := hends
    obtain rfl := Option.some.inj (hfound (some row') (by simp [hlog', foundBy]))
    have hsigned : (⟨.jwtSign ⟨row'.id, row'.email⟩, .ok token⟩ : Done) ∈ n.log := by simp [hlog']
    obtain ⟨iat, hsince, hpast, htoken⟩ := hstamped.signed k n hk hn _ token hsigned
    refine .inr ⟨token, (Option.some.inj hreply).symm, iat, hsince, hpast, ?_⟩
    intro now
    rw [htoken, hlib.verify_sign]
    rfl
  · rw [hlogin] at hthrows
    cases e with
    | db f => exact .inl ⟨rfl, f, hthrows⟩
    | app e =>
      obtain ⟨rfl, hnone | ⟨row', hwrong⟩⟩ := hthrows
      · cases hfound none (by simp [hnone])
      · obtain rfl := Option.some.inj (hfound (some row') (by simp [hwrong, foundBy]))
        have hcompared := hknown'.holds n hmem (comparedBy dto' row' false) (by simp [hwrong])
          false rfl
        rw [hrow.2.2, hhash, hpassword, hlib.compare_hash] at hcompared
        cases hcompared

end Registrations

/-! ## Runs -/

section Plain

/-- Libraries that hide nothing. -/
def plainLibraries : Libraries where
  hash := fun plain salt => natText salt ++ '.' :: plain
  compare := fun plain hash => decide ((hash.dropWhile Char.isDigit).drop 1 = plain)
  sign := fun payload _ exp => natText exp ++ '.' :: (natText payload.sub ++ '.' :: payload.email)
  verify := fun token now =>
    let rest := (token.dropWhile Char.isDigit).drop 1
    match parseNat (token.takeWhile Char.isDigit), parseNat (rest.takeWhile Char.isDigit) with
    | some exp, some sub =>
      if now < exp then .ok ⟨sub, (rest.dropWhile Char.isDigit).drop 1⟩ else .error .tokenExpired
    | _, _ => .error .jsonWebToken

theorem takeWhile_natText (k : ℕ) (rest : Text) :
    (natText k ++ '.' :: rest).takeWhile Char.isDigit = natText k := by
  rw [List.takeWhile_append_of_pos (by simpa using natText_digits k)]
  simp

theorem dropWhile_natText (k : ℕ) (rest : Text) :
    (natText k ++ '.' :: rest).dropWhile Char.isDigit = '.' :: rest := by
  rw [List.dropWhile_append_of_pos (by simpa using natText_digits k)]
  simp

theorem plainLibraries_documented : plainLibraries.Documented where
  compare_hash := by
    intro plain salt
    simp [plainLibraries, dropWhile_natText]
  verify_sign := by
    intro payload iat exp now
    simp [plainLibraries, takeWhile_natText, dropWhile_natText, parseNat_natText]

def signs (token : Text) : Done → Bool
  | ⟨.jwtSign _, .ok signed⟩ => decide (signed = token)
  | _ => false

/-- The test of a schedule: a token that is presented has been issued. -/
def presentsIssued (s : Guests) : Turn → Bool
  | .start j => j.presents.all (fun token => s.nodes.any (fun n => n.log.any (signs token)))
  | _ => true

theorem Genuine.of_test {lib : Libraries} (s : Guests) (l : Turn)
    (h : presentsIssued s l = true) : Genuine lib s l := by
  rintro j token rfl htoken -
  simp only [presentsIssued, htoken, Option.all_some, List.any_eq_true] at h
  obtain ⟨n, hn, d, hd, hsigns⟩ := h
  unfold signs at hsigns
  split at hsigns
  · rename_i payload signed
    obtain rfl := of_decide_eq_true hsigns
    exact ⟨n, hn, payload, hd⟩
  · cases hsigns

def signUp : RegisterDto :=
  ⟨"Owner@Shop.example".toList, "supersecret123".toList, by decide +kernel, by decide +kernel⟩

def signIn : LoginDto :=
  ⟨"owner@shop.EXAMPLE".toList, "supersecret123".toList, by decide +kernel, by decide +kernel⟩

def ownerToken : Text := plainLibraries.sign ⟨1, "owner@shop.example".toList⟩ 0 EXPIRES_IN

/-- Two registrations of one email, of which the second to insert is refused. -/
def registerTwice : List Turn :=
  [.start (.register signUp), .start (.register signUp), .run 0 (.done 7), .run 1 (.done 8),
    .run 0 (.done 1), .run 1 (.done 2)]

def logIn : List Turn :=
  [.start (.login signIn), .run 2 (.done 0), .run 2 (.done 0), .run 2 (.done 0)]

/-- One second before the token expires. -/
def callMe : List Turn := [.event 3599000, .start (.me (some (bearer ++ ownerToken)))]

def runTo (ls : List Turn) : Option Guests :=
  Pool.runWhile (device plainLibraries) program presentsIssued (Pool.begin .empty) ls

theorem exists_of_runTo {ls : List Turn} {p : Guests → Bool} (h : (runTo ls).any p = true) :
    ∃ s, s.Reach plainLibraries (Genuine plainLibraries) ∧ p s = true := by
  obtain ⟨s, hs, hp⟩ := Runs.exists_of_runWhile h
  exact ⟨s, hs.mono (fun s l hl => .of_test s l hl), hp⟩

end Plain

theorem admitted_logged_in_late : ∃ (s : Guests) (iat : ℕ),
    Session plainLibraries s ownerToken ⟨1, "owner@shop.example".toList⟩ iat ∧
      s.world.seconds = 3599 ∧ s.world.seconds < iat + EXPIRES_IN := by
  have hrun : (runTo (registerTwice ++ logIn ++ callMe)).any (fun s =>
      decide (s.world.seconds = 3599) && (s.nodes[3]?).any (fun n =>
        decide (n.next = some (.jwtVerify ownerToken)))) = true := by decide +kernel
  obtain ⟨s, hs, hat⟩ := exists_of_runTo hrun
  rw [Bool.and_eq_true, Option.any_eq_true] at hat
  obtain ⟨htime, n, hn, hnext⟩ := hat
  have htime := of_decide_eq_true htime
  have hverify : plainLibraries.verify ownerToken s.world.seconds =
      .ok ⟨1, "owner@shop.example".toList⟩ := by
    rw [htime]
    decide +kernel
  obtain ⟨iat, hsession, hhour⟩ := admitted_logged_in plainLibraries_documented hs
    (List.mem_of_getElem? hn) (of_decide_eq_true hnext) hverify
  exact ⟨s, iat, hsession, htime, hhour⟩

theorem caller_found_owner : ∃ s : Guests, ∃ n ∈ s.nodes, ∃ (payload : AuthTokenPayload)
    (res : Response), Guest.response n = some res ∧ res.status = 200 ∧
      (res = ⟨200, .merchant ⟨payload.sub, payload.email⟩⟩ ∨
        res.status = 500 ∧ ∃ f, statementFailed n.log f) := by
  have hrun : (runTo (registerTwice ++ logIn ++ callMe ++ [.run 3 (.done 0), .run 3 (.done 0)])).any
      (fun s => (s.nodes[3]?).any (fun n => decide (n.job = .me (some (bearer ++ ownerToken))) &&
        (Guest.response n).any (fun res => decide (res.status = 200)))) = true := by
    decide +kernel
  obtain ⟨s, hs, hat⟩ := exists_of_runTo hrun
  rw [Option.any_eq_true] at hat
  obtain ⟨n, hn, hat⟩ := hat
  rw [Bool.and_eq_true, Option.any_eq_true] at hat
  obtain ⟨hjob, res, hres, hstatus⟩ := hat
  have hjob := of_decide_eq_true hjob
  have hstatus := of_decide_eq_true hstatus
  have hmem := List.mem_of_getElem? hn
  obtain ⟨reply, hends, -⟩ | ⟨e, -, rfl⟩ := response_cases hs hmem hres
  · rw [hjob] at hends
    obtain ⟨token, payload, row, -, hlog, -⟩ := hends
    have hverified : verifiedBy token payload ∈ n.log := by simp [hlog]
    exact ⟨s, n, hmem, payload, res, hres, hstatus,
      caller_found plainLibraries_documented hs hmem hjob hverified hres⟩
  · cases e with
    | db f => cases hstatus
    | app e => cases e <;> cases hstatus

theorem one_account_raced : ∃ s : Guests,
    (s.nodes.map (fun n => (Guest.response n).map (·.status))) = [some 201, some 409] ∧
      OneAccount s := by
  have hrun : (runTo registerTwice).any (fun s => decide
      ((s.nodes.map (fun n => (Guest.response n).map (·.status))) = [some 201, some 409])) =
        true := by decide +kernel
  obtain ⟨s, hs, hat⟩ := exists_of_runTo hrun
  exact ⟨s, of_decide_eq_true hat, one_account hs⟩

theorem registered_logs_in_respelled : ∃ (s t : Guests) (n : Guest) (res : Response)
    (a : PublicMerchant), a.email = "owner@shop.example".toList ∧ res.status = 200 ∧
      ((res.status = 500 ∧ ∃ f, statementFailed n.log f) ∨
        ∃ token, res = ⟨200, .session token a⟩ ∧ ∃ iat, s.world.seconds ≤ iat ∧
          iat ≤ t.world.seconds ∧ ∀ now, plainLibraries.verify token now =
            if now < iat + EXPIRES_IN then .ok ⟨a.id, a.email⟩ else .error .tokenExpired) := by
  have hrun : (runTo registerTwice).any (fun s => (s.nodes[0]?).any (fun r =>
      decide (r.job = .register signUp) && decide (Guest.response r =
        some ⟨201, .merchant ⟨1, "owner@shop.example".toList⟩⟩)) && decide (s.nodes.length = 2) &&
      (Pool.runWhile (device plainLibraries) program (fun _ _ => true) s logIn).any (fun t =>
        (t.nodes[2]?).any (fun n => decide (n.job = .login signIn) &&
          (Guest.response n).any (fun res => decide (res.status = 200))))) = true := by
    decide +kernel
  obtain ⟨s, hs, hat⟩ := exists_of_runTo hrun
  rw [Bool.and_eq_true, Bool.and_eq_true] at hat
  obtain ⟨⟨hfirst, hlength⟩, hthen⟩ := hat
  obtain ⟨t, ht, hlast⟩ := Runs.exists_of_runWhile hthen
  simp only [Option.any_eq_true, Bool.and_eq_true, decide_eq_true_eq] at hfirst hlast hlength
  obtain ⟨r, hr, hregister, hcreated⟩ := hfirst
  obtain ⟨n, hn, hlogin, res, hres, hstatus⟩ := hlast
  exact ⟨s, t, n, res, ⟨1, "owner@shop.example".toList⟩, rfl, hstatus,
    registered_logs_in plainLibraries_documented hs ht (List.mem_of_getElem? hr) hregister hcreated
      hlength.le hn hlogin (by decide +kernel) rfl hres⟩

end PaymentApis.Auth
