import PaymentApis.Services
import PaymentApis.Lib.Processes

/-!
# Accounts and sessions: `auth/`, `merchants/`, `middleware/authenticate.ts`

Registration and login, and the middleware in front of every protected route,
as processes over the table of merchants and a clock. The libraries `bcrypt` and
`jsonwebtoken` are parameters; what their documentation promises is
`Libraries.Documented`.
-/

namespace PaymentApis.Auth

open TxStore Processes

/-! ## Errors -/

/-- The `AppError` subclasses of registration, login and the middleware. -/
inductive AuthError
  | emailAlreadyExists
  | invalidCredentials
  | unauthorized (message : String)
  | invalidToken
  | expiredToken
deriving DecidableEq

namespace AuthError

def code : AuthError → String
  | emailAlreadyExists => "email_already_registered"
  | invalidCredentials => "invalid_credentials"
  | unauthorized _ => "unauthorized"
  | invalidToken => "invalid_token"
  | expiredToken => "token_expired"

def message : AuthError → String
  | emailAlreadyExists => "A merchant with this email already exists"
  | invalidCredentials => "Invalid email or password"
  | unauthorized m => m
  | invalidToken => "Invalid authentication token"
  | expiredToken => "Authentication token has expired"

def statusCode : AuthError → ℕ
  | emailAlreadyExists => 409
  | _ => 401

end AuthError

/-- What is thrown: a domain error, or the failure of a statement. -/
inductive Failure
  | app (e : AuthError)
  | db (f : Fault)
deriving DecidableEq

/-! ## The libraries -/

/-- `AuthTokenPayload`. -/
structure AuthTokenPayload where
  sub : Uuid
  email : Text
deriving DecidableEq

inductive JwtError
  | tokenExpired
  | jsonWebToken
deriving DecidableEq

/-- `bcrypt.hash` with the salt it draws, `bcrypt.compare`, and `jwt.sign` and
`jwt.verify` under `JWT_SECRET`, with the times in seconds. -/
structure Libraries where
  hash : Text → ℕ → Text
  compare : Text → Text → Bool
  sign : AuthTokenPayload → (iat exp : ℕ) → Text
  verify : Text → ℕ → Except JwtError AuthTokenPayload

structure Libraries.Documented (lib : Libraries) : Prop where
  compare_hash : ∀ plain salt, lib.compare plain (lib.hash plain salt) = true
  verify_sign : ∀ payload iat exp now, lib.verify (lib.sign payload iat exp) now =
    if now < exp then .ok payload else .error .tokenExpired

/-- `EXPIRES_IN`, in seconds. -/
def EXPIRES_IN : ℕ := 3600

/-! ## `migrations/0001_create_merchants.sql` -/

structure MerchantRow where
  id : Uuid
  email : Text
  passwordHash : Text
deriving DecidableEq

/-- The table `merchants`, with its primary key and its `UNIQUE` email. -/
structure Merchants where
  rows : List MerchantRow
  ids : (rows.map (·.id)).Nodup
  emails : (rows.map (·.email)).Nodup

namespace Merchants

def empty : Merchants := ⟨[], List.nodup_nil, List.nodup_nil⟩

/-- A new row; its identifier and its email are new. -/
def add (t : Merchants) (row : MerchantRow) (hid : ¬ ∃ r ∈ t.rows, r.id = row.id)
    (hemail : ¬ ∃ r ∈ t.rows, r.email = row.email) : Merchants where
  rows := t.rows ++ [row]
  ids := by
    rw [List.map_append]
    exact t.ids.append (List.nodup_singleton _) (by simpa using hid)
  emails := by
    rw [List.map_append]
    exact t.emails.append (List.nodup_singleton _) (by simpa using hemail)

/-- `INSERT INTO merchants`, with the identifier the database draws. -/
def insert (t : Merchants) (id : Uuid) (email passwordHash : Text) :
    Option (Except Fault MerchantRow × Merchants) :=
  if hid : ∃ r ∈ t.rows, r.id = id then none
  else if hemail : ∃ r ∈ t.rows, r.email = email then some (.error .uniqueViolation, t)
  else some (.ok ⟨id, email, passwordHash⟩, t.add ⟨id, email, passwordHash⟩ hid hemail)

def findByEmail (t : Merchants) (email : Text) : Option MerchantRow :=
  t.rows.find? (fun r => decide (r.email = email))

def findById (t : Merchants) (id : Uuid) : Option MerchantRow :=
  t.rows.find? (fun r => decide (r.id = id))

end Merchants

/-! ## Requests -/

/-- `toLowerCase` of an email, which has ASCII characters only. -/
def toLowerCase (email : Text) : Text := email.map Char.toLower

def isAscii (email : Text) : Bool := email.all (fun c => decide (c.toNat < 128))

/-- `registerSchema`; what zod takes for an email is ASCII. -/
structure RegisterDto where
  email : Text
  password : Text
  ascii : isAscii email = true
  passwordMin : 8 ≤ jsLength password
deriving DecidableEq

/-- `loginSchema`. -/
structure LoginDto where
  email : Text
  password : Text
  ascii : isAscii email = true
  passwordMin : 1 ≤ jsLength password
deriving DecidableEq

/-- A request: `me` is `GET /auth/me`, and `guarded` any other protected route,
with its `Authorization` header. -/
inductive Request
  | register (dto : RegisterDto)
  | login (dto : LoginDto)
  | me (header : Option Text)
  | guarded (header : Option Text)
deriving DecidableEq

structure PublicMerchant where
  id : Uuid
  email : Text
deriving DecidableEq

/-- `req.merchant`. -/
structure Caller where
  id : Uuid
  email : Text
deriving DecidableEq

/-- What a route ends with; `next` is the handler of a protected one. -/
inductive Reply
  | merchant (m : PublicMerchant)
  | session (token : Text) (m : PublicMerchant)
  | next (caller : Caller)
deriving DecidableEq

/-! ## What the processes share -/

/-- The table, and the clock in milliseconds. -/
structure Accounts where
  now : ℕ
  merchants : Merchants

def Accounts.empty : Accounts := ⟨0, .empty⟩

/-- `Math.floor(Date.now() / 1000)`. -/
def Accounts.seconds (w : Accounts) : ℕ := w.now / 1000

inductive Op
  | bcryptHash (plain : Text)
  | bcryptCompare (plain hash : Text)
  | jwtSign (payload : AuthTokenPayload)
  | jwtVerify (token : Text)
  | merchantInsert (email passwordHash : Text)
  | merchantFindByEmail (email : Text)
  | merchantFindById (id : Uuid)
deriving DecidableEq

@[reducible] def Answer : Op → Type
  | .bcryptHash _ => Text
  | .bcryptCompare _ _ => Bool
  | .jwtSign _ => Text
  | .jwtVerify _ => Except JwtError AuthTokenPayload
  | .merchantInsert _ _ => MerchantRow
  | .merchantFindByEmail _ => Option MerchantRow
  | .merchantFindById _ => Option MerchantRow

/-- How an action turns out: it is done, with the salt or the identifier that is
drawn; a statement fails; or it takes effect and its answer is lost. -/
inductive Outcome
  | done (drawn : ℕ)
  | failed (message : String)
  | lost (drawn : ℕ) (message : String)
deriving DecidableEq

namespace Accounts

variable (lib : Libraries)

/-- A `SELECT`. -/
def select {α : Type} (o : Outcome) (w : Accounts) (a : α) :
    Option (Except Failure α × Accounts) :=
  match o with
  | .done _ => some (.ok a, w)
  | .failed message | .lost _ message => some (.error (.db (.connection message)), w)

/-- A call that does not leave the process. -/
def compute {α : Type} (o : Outcome) (w : Accounts) (f : ℕ → α) :
    Option (Except Failure α × Accounts) :=
  match o with
  | .done drawn => some (.ok (f drawn), w)
  | _ => none

def act : (s : Op) → Outcome → Accounts → Option (Except Failure (Answer s) × Accounts)
  | .bcryptHash plain, o, w => compute o w (fun salt => lib.hash plain salt)
  | .bcryptCompare plain hash, o, w => compute o w (fun _ => lib.compare plain hash)
  | .jwtSign payload, o, w =>
    compute o w (fun _ => lib.sign payload w.seconds (w.seconds + EXPIRES_IN))
  | .jwtVerify token, o, w => compute o w (fun _ => lib.verify token w.seconds)
  | .merchantInsert email hash, o, w =>
    match o with
    | .done id => (w.merchants.insert id email hash).map (fun x =>
      (x.1.mapError .db, { w with merchants := x.2 }))
    | .failed message => some (.error (.db (.connection message)), w)
    | .lost id message => (w.merchants.insert id email hash).map (fun x =>
      (.error (.db (.connection message)), { w with merchants := x.2 }))
  | .merchantFindByEmail email, o, w => select o w (w.merchants.findByEmail email)
  | .merchantFindById id, o, w => select o w (w.merchants.findById id)

end Accounts

def device (lib : Libraries) :
    Processes.Device Accounts Op Answer Failure Outcome Request ℕ where
  act := fun _ _ => Accounts.act lib
  birth := fun _ _ w => some w
  crash := fun _ _ w => w
  event := fun n w => some { w with now := w.now + n }

abbrev Script := Processes.Script Op Answer Failure

abbrev Done := Processes.Did Op Answer Failure

abbrev Guest := Processes.Member Op Answer Failure Request Reply

abbrev Guests := Processes.Pool Accounts Op Answer Failure Request Reply

abbrev Turn := Processes.Label Outcome Request ℕ

abbrev act (s : Op) : Script (Answer s) := Client.exec s

/-! ## The programs -/

/-- `auth/password.ts`. -/
def hashPassword (plain : Text) : Script Text := act (.bcryptHash plain)

def verifyPassword (plain hash : Text) : Script Bool := act (.bcryptCompare plain hash)

/-- `auth/jwt.ts`. -/
def signToken (payload : AuthTokenPayload) : Script Text := act (.jwtSign payload)

def verifyToken (token : Text) : Script AuthTokenPayload := do
  match ← act (.jwtVerify token) with
  | .ok decoded => return ⟨decoded.sub, decoded.email⟩
  | .error .tokenExpired => .throw (.app .expiredToken)
  | .error .jsonWebToken => .throw (.app .invalidToken)

/-- `merchants/merchant.repository.ts`. -/
def merchantRepository.insert (email passwordHash : Text) : Script MerchantRow :=
  (act (.merchantInsert email passwordHash)).tryCatch (fun err =>
    match err with
    | .db .uniqueViolation => .throw (.app .emailAlreadyExists)
    | err => .throw err)

def toPublicMerchant (row : MerchantRow) : PublicMerchant := ⟨row.id, row.email⟩

namespace authService

def register (dto : RegisterDto) : Script PublicMerchant := do
  let passwordHash ← hashPassword dto.password
  let created ← merchantRepository.insert (toLowerCase dto.email) passwordHash
  return toPublicMerchant created

def login (dto : LoginDto) : Script (Text × PublicMerchant) := do
  match ← act (.merchantFindByEmail (toLowerCase dto.email)) with
  | none => .throw (.app .invalidCredentials)
  | some merchant => do
    let passwordOk ← verifyPassword dto.password merchant.passwordHash
    if passwordOk then
      let token ← signToken ⟨merchant.id, merchant.email⟩
      return (token, toPublicMerchant merchant)
    else .throw (.app .invalidCredentials)

def getById (id : Uuid) : Script PublicMerchant := do
  match ← act (.merchantFindById id) with
  | none => .throw (.app (.unauthorized "Account no longer exists"))
  | some merchant => return toPublicMerchant merchant

end authService

/-- The characters `String.prototype.trim` removes. -/
def isSpace (c : Char) : Bool :=
  decide (c.toNat ∈ [9, 10, 11, 12, 13, 32, 160, 5760, 8232, 8233, 8239, 8287, 12288, 65279]) ||
    decide (8192 ≤ c.toNat ∧ c.toNat ≤ 8202)

def trim (s : Text) : Text := ((s.dropWhile isSpace).reverse.dropWhile isSpace).reverse

def bearer : Text := "Bearer ".toList

/-- The token of an `Authorization` header. -/
def tokenOf (header : Option Text) : Except AuthError Text :=
  match header with
  | none => .error (.unauthorized "Missing or malformed Authorization header")
  | some header =>
    if bearer.isPrefixOf header then
      if trim (header.drop bearer.length) = [] then .error (.unauthorized "Missing bearer token")
      else .ok (trim (header.drop bearer.length))
    else .error (.unauthorized "Missing or malformed Authorization header")

example : tokenOf (some "Bearer  abc ".toList) = .ok "abc".toList := by decide +kernel

/-- `middleware/authenticate.ts`. -/
def authenticate (header : Option Text) : Script Caller := do
  let token ← Client.ofExcept ((tokenOf header).mapError .app)
  let payload ← verifyToken token
  return ⟨payload.sub, payload.email⟩

/-- The routes; a protected one hands the caller to its handler. -/
def program : Request → Script Reply
  | .register dto => do return .merchant (← authService.register dto)
  | .login dto => do
    let r ← authService.login dto
    return .session r.1 r.2
  | .me header => do
    let caller ← authenticate header
    return .merchant (← authService.getById caller.id)
  | .guarded header => do return .next (← authenticate header)

/-! ## Responses -/

inductive ResponseBody
  | merchant (m : PublicMerchant)
  | session (token : Text) (m : PublicMerchant)
  | error (code message : String)
deriving DecidableEq

structure Response where
  status : ℕ
  body : ResponseBody
deriving DecidableEq

/-- `middleware/error-handler.ts`. -/
def errorHandler : Failure → Response
  | .app e => ⟨e.statusCode, .error e.code e.message⟩
  | .db _ => ⟨500, .error "internal_error" "Something went wrong"⟩

/-- `auth/auth.controller.ts`. -/
def authController : Request → Reply → Option Response
  | .register _, .merchant m => some ⟨201, .merchant m⟩
  | _, .merchant m => some ⟨200, .merchant m⟩
  | _, .session token m => some ⟨200, .session token m⟩
  | _, .next _ => none

/-- What the client has been answered. -/
def Guest.response (n : Guest) : Option Response :=
  match n.script with
  | some (.ret reply) => authController n.job reply
  | some (.throw e) => some (errorHandler e)
  | _ => none

/-- `req.merchant`, where the handler of a protected route begins. -/
def Guest.caller (n : Guest) : Option Caller :=
  match n.script with
  | some (.ret (.next caller)) => some caller
  | _ => none

/-! ## What a record says -/

/-- The record of a login that has found its merchant. -/
def foundBy (dto : LoginDto) (row : MerchantRow) : Done :=
  ⟨.merchantFindByEmail (toLowerCase dto.email), .ok (some row)⟩

def comparedBy (dto : LoginDto) (row : MerchantRow) (ok : Bool) : Done :=
  ⟨.bcryptCompare dto.password row.passwordHash, .ok ok⟩

def hashedBy (dto : RegisterDto) (hash : Text) : Done := ⟨.bcryptHash dto.password, .ok hash⟩

def verifiedBy (token : Text) (payload : AuthTokenPayload) : Done :=
  ⟨.jwtVerify token, .ok (.ok payload)⟩

/-- What a request does after what. -/
def may : Request → List Done → Op → Prop
  | .register dto, log, .bcryptHash plain => log = [] ∧ plain = dto.password
  | .register dto, log, .merchantInsert email hash =>
    log = [hashedBy dto hash] ∧ email = toLowerCase dto.email
  | .login dto, log, .merchantFindByEmail email => log = [] ∧ email = toLowerCase dto.email
  | .login dto, log, .bcryptCompare plain hash =>
    ∃ row, log = [foundBy dto row] ∧ plain = dto.password ∧ hash = row.passwordHash
  | .login dto, log, .jwtSign payload =>
    ∃ row, log = [foundBy dto row, comparedBy dto row true] ∧ payload = ⟨row.id, row.email⟩
  | .me header, log, .jwtVerify token => log = [] ∧ tokenOf header = .ok token
  | .me header, log, .merchantFindById id => ∃ token payload,
      log = [verifiedBy token payload] ∧ tokenOf header = .ok token ∧ id = payload.sub
  | .guarded header, log, .jwtVerify token => log = [] ∧ tokenOf header = .ok token
  | _, _, _ => False

/-- Where a request returns. -/
def ends : Request → List Done → Reply → Prop
  | .register dto, log, reply => ∃ hash row,
      log = [hashedBy dto hash, ⟨.merchantInsert (toLowerCase dto.email) hash, .ok row⟩] ∧
        reply = .merchant (toPublicMerchant row)
  | .login dto, log, reply => ∃ row token,
      log = [foundBy dto row, comparedBy dto row true, ⟨.jwtSign ⟨row.id, row.email⟩, .ok token⟩] ∧
        reply = .session token (toPublicMerchant row)
  | .me header, log, reply => ∃ token payload row, tokenOf header = .ok token ∧
      log = [verifiedBy token payload, ⟨.merchantFindById payload.sub, .ok (some row)⟩] ∧
        reply = .merchant (toPublicMerchant row)
  | .guarded header, log, reply => ∃ token payload, tokenOf header = .ok token ∧
      log = [verifiedBy token payload] ∧ reply = .next ⟨payload.sub, payload.email⟩

/-- A statement of the request has failed so. -/
def statementFailed (log : List Done) (f : Fault) : Prop := ∃ s, (⟨s, .error (.db f)⟩ : Done) ∈ log

/-- Where a request throws: the failure of a statement, or a domain error. -/
def throws : Request → List Done → Failure → Prop
  | _, log, .db f => statementFailed log f
  | .register dto, log, .app e => e = .emailAlreadyExists ∧ ∃ hash, log = [hashedBy dto hash,
      ⟨.merchantInsert (toLowerCase dto.email) hash, .error (.db .uniqueViolation)⟩]
  | .login dto, log, .app e => e = .invalidCredentials ∧
      (log = [⟨.merchantFindByEmail (toLowerCase dto.email), .ok none⟩] ∨
        ∃ row, log = [foundBy dto row, comparedBy dto row false])
  | .me _, log, .app _ => (∀ token payload, verifiedBy token payload ∉ log) ∨
      ∃ id, ⟨.merchantFindById id, .ok none⟩ ∈ log
  | .guarded _, log, .app _ => ∀ token payload, verifiedBy token payload ∉ log

/-- Only a statement can fail, and then with the failure of the database. -/
def gives (_ : List Done) : (s : Op) → Except Failure (Answer s) → Prop
  | .bcryptHash _, r => r.isOk = true
  | .bcryptCompare _ _, r => r.isOk = true
  | .jwtSign _, r => r.isOk = true
  | .jwtVerify _, r => r.isOk = true
  | _, r => ∀ e, r = .error e → ∃ f, e = .db f

section Scripts

variable {lib : Libraries}

theorem gives_compute {α : Type} {o : Outcome} {w w' : Accounts} {f : ℕ → α}
    {r : Except Failure α} (h : Accounts.compute o w f = some (r, w')) : r.isOk = true := by
  cases o with
  | done drawn =>
    obtain ⟨rfl, -⟩ := Prod.mk.inj (Option.some.inj h)
    rfl
  | failed message => cases h
  | lost drawn message => cases h

theorem gives_select {α : Type} {o : Outcome} {w w' : Accounts} {a : α} {r : Except Failure α}
    (h : Accounts.select o w a = some (r, w')) {e : Failure} (he : r = .error e) :
    ∃ f, e = .db f := by
  subst he
  cases o with
  | done drawn => cases h
  | failed message =>
    obtain ⟨hr, -⟩ := Prod.mk.inj (Option.some.inj h)
    cases hr
    exact ⟨_, rfl⟩
  | lost drawn message =>
    obtain ⟨hr, -⟩ := Prod.mk.inj (Option.some.inj h)
    cases hr
    exact ⟨_, rfl⟩

theorem gives_act {s : Op} {o : Outcome} {w w' : Accounts} {r : Except Failure (Answer s)}
    (h : Accounts.act lib s o w = some (r, w')) (log : List Done) : gives log s r := by
  cases s with
  | bcryptHash plain => exact gives_compute h
  | bcryptCompare plain hash => exact gives_compute h
  | jwtSign payload => exact gives_compute h
  | jwtVerify token => exact gives_compute h
  | merchantFindByEmail email => exact fun e he => gives_select h he
  | merchantFindById id => exact fun e he => gives_select h he
  | merchantInsert email hash =>
    rintro e rfl
    cases o with
    | done id =>
      obtain ⟨⟨inserted, merchants⟩, -, hx⟩ := Option.map_eq_some_iff.mp h
      obtain ⟨hr, -⟩ := Prod.mk.inj hx
      cases inserted with
      | ok row => cases hr
      | error f =>
        cases hr
        exact ⟨f, rfl⟩
    | failed message =>
      obtain ⟨hr, -⟩ := Prod.mk.inj (Option.some.inj h)
      cases hr
      exact ⟨_, rfl⟩
    | lost id message =>
      obtain ⟨x, -, hx⟩ := Option.map_eq_some_iff.mp h
      obtain ⟨hr, -⟩ := Prod.mk.inj hx
      cases hr
      exact ⟨_, rfl⟩

/-- A call that does not fail. -/
theorem computes {J : Request} {s : Op} {log : List Done} {Q : List Done → Answer s → Prop}
    {X : List Done → Failure → Prop} (hs : ∀ r, gives log s r → r.isOk = true) (hp : may J log s)
    (hq : ∀ a, Q (log ++ [⟨s, .ok a⟩]) a) : Issues gives (may J) Q X log (act s) := by
  refine Issues.exec hp (fun a _ => hq a) ?_
  intro e he
  cases hs _ he

theorem register_issues (dto : RegisterDto) : Issues gives (may (.register dto))
    (ends (.register dto)) (throws (.register dto)) [] (program (.register dto)) := by
  refine Issues.bind (Q := fun log merchant => ∃ hash row, log = [hashedBy dto hash,
    ⟨.merchantInsert (toLowerCase dto.email) hash, .ok row⟩] ∧ merchant = toPublicMerchant row)
    ?_ (Issues.bind (Q := fun log hash => log = [hashedBy dto hash]) ?_
      (computes (fun _ h => h) ⟨rfl, rfl⟩ (fun hash => rfl)))
  · rintro log merchant ⟨hash, row, rfl, rfl⟩
    exact ⟨hash, row, rfl, rfl⟩
  rintro log hash rfl
  refine Issues.bind (Q := fun log row => log = [hashedBy dto hash,
    ⟨.merchantInsert (toLowerCase dto.email) hash, .ok row⟩]) ?_ ?_
  · rintro log row rfl
    exact ⟨hash, row, rfl, rfl⟩
  refine Issues.tryCatch (X := fun log e => ∃ f, e = .db f ∧ log = [hashedBy dto hash,
    ⟨.merchantInsert (toLowerCase dto.email) hash, .error e⟩]) ?_
    (Issues.exec ⟨rfl, rfl⟩ (fun row _ => rfl) ?_)
  · rintro log e ⟨f, rfl, rfl⟩
    cases f with
    | uniqueViolation => exact ⟨rfl, hash, rfl⟩
    | checkViolation | numericOutOfRange | invalidText | connection =>
      exact ⟨.merchantInsert (toLowerCase dto.email) hash, by simp⟩
  · intro e he
    obtain ⟨f, rfl⟩ := he e rfl
    exact ⟨f, rfl, rfl⟩

theorem login_issues (dto : LoginDto) : Issues gives (may (.login dto)) (ends (.login dto))
    (throws (.login dto)) [] (program (.login dto)) := by
  refine Issues.bind (Q := fun log x => ends (.login dto) log (.session x.1 x.2)) ?_
    (Issues.bind (Q := fun log found =>
      log = [⟨.merchantFindByEmail (toLowerCase dto.email), .ok found⟩]) ?_
      (Issues.exec ⟨rfl, rfl⟩ (fun found _ => rfl) ?_))
  · rintro log ⟨token, merchant⟩ h
    exact h
  · rintro log found rfl
    cases found with
    | none => exact ⟨rfl, .inl rfl⟩
    | some row =>
      refine Issues.bind (Q := fun log ok => log = [foundBy dto row, comparedBy dto row ok]) ?_
        (computes (fun _ h => h) ⟨row, rfl, rfl, rfl⟩ (fun ok => rfl))
      rintro log ok rfl
      cases ok with
      | false => exact ⟨rfl, .inr ⟨row, rfl⟩⟩
      | true =>
        refine Issues.bind (Q := fun log token => log = [foundBy dto row, comparedBy dto row true,
          ⟨.jwtSign ⟨row.id, row.email⟩, .ok token⟩]) ?_
          (computes (fun _ h => h) ⟨row, rfl, rfl⟩ (fun token => rfl))
        rintro log token rfl
        exact ⟨row, token, rfl, rfl⟩
  · intro e he
    obtain ⟨f, rfl⟩ := he e rfl
    exact ⟨_, List.mem_append_right _ List.mem_cons_self⟩

/-- The middleware: it lets the caller of a genuine token pass. -/
theorem authenticate_issues {J : Request} {header : Option Text}
    (hmay : ∀ token, tokenOf header = .ok token → may J [] (.jwtVerify token))
    (hthrows : ∀ log e, (∀ token payload, verifiedBy token payload ∉ log) →
      throws J log (.app e)) :
    Issues gives (may J) (fun log caller => ∃ token payload, tokenOf header = .ok token ∧
      log = [verifiedBy token payload] ∧ caller = ⟨payload.sub, payload.email⟩) (throws J) []
      (authenticate header) := by
  unfold authenticate
  cases htoken : tokenOf header with
  | error e => exact hthrows [] e (fun _ _ h => absurd h List.not_mem_nil)
  | ok token =>
    refine Issues.bind (Q := fun log payload => log = [verifiedBy token payload]) ?_ ?_
    · rintro log payload rfl
      exact ⟨token, payload, rfl, rfl, rfl⟩
    refine Issues.bind (Q := fun log decoded => log = [⟨.jwtVerify token, .ok decoded⟩]) ?_
      (computes (fun _ h => h) (hmay token htoken) (fun decoded => rfl))
    rintro log decoded rfl
    cases decoded with
    | ok payload => rfl
    | error e =>
      have hnot : ∀ token' payload, verifiedBy token' payload ∉
          [(⟨.jwtVerify token, .ok (.error e)⟩ : Done)] := by
        intro token' payload hmem
        cases List.mem_singleton.mp hmem
      cases e with
      | tokenExpired => exact hthrows _ _ hnot
      | jsonWebToken => exact hthrows _ _ hnot

theorem me_issues (header : Option Text) : Issues gives (may (.me header)) (ends (.me header))
    (throws (.me header)) [] (program (.me header)) := by
  refine Issues.bind ?_ (authenticate_issues (fun token h => ⟨rfl, h⟩) (fun log e h => .inl h))
  rintro log caller ⟨token, payload, htoken, rfl, rfl⟩
  refine Issues.bind (Q := fun log merchant => ∃ row, merchant = toPublicMerchant row ∧
    log = [verifiedBy token payload, ⟨.merchantFindById payload.sub, .ok (some row)⟩]) ?_
    (Issues.bind (Q := fun log found => log = [verifiedBy token payload,
      ⟨.merchantFindById payload.sub, .ok found⟩]) ?_
      (Issues.exec ⟨token, payload, rfl, htoken, rfl⟩ (fun found _ => rfl) ?_))
  · rintro log merchant ⟨row, rfl, rfl⟩
    exact ⟨token, payload, row, htoken, rfl, rfl⟩
  · rintro log found rfl
    cases found with
    | none => exact .inr ⟨payload.sub, by simp⟩
    | some row => exact ⟨row, rfl, rfl⟩
  · intro e he
    obtain ⟨f, rfl⟩ := he e rfl
    exact ⟨_, List.mem_append_right _ List.mem_cons_self⟩

theorem guarded_issues (header : Option Text) : Issues gives (may (.guarded header))
    (ends (.guarded header)) (throws (.guarded header)) [] (program (.guarded header)) := by
  refine Issues.bind ?_ (authenticate_issues (fun token h => ⟨rfl, h⟩) (fun log e h => h))
  rintro log caller ⟨token, payload, htoken, rfl, rfl⟩
  exact ⟨token, payload, htoken, rfl, rfl⟩

theorem program_issues (j : Request) :
    Issues gives (may j) (ends j) (throws j) [] (program j) := by
  cases j with
  | register dto => exact register_issues dto
  | login dto => exact login_issues dto
  | me header => exact me_issues header
  | guarded header => exact guarded_issues header

end Scripts

/-- What is known of the records. -/
def discipline (lib : Libraries) : Discipline (device lib) program where
  Gives := gives
  May := may
  gives := fun _ hact => gives_act hact _
  issues := fun j => Issues.imp (fun _ _ _ => trivial) (fun _ _ _ => trivial) (program_issues j)

end PaymentApis.Auth
