import PaymentApis.System
import PaymentApis.Lib.Json

/-!
# Request fingerprints

`hashRequest` of `middleware/idempotency.ts`, on the body that `validateBody`
has rebuilt. The digest is a parameter.
-/

namespace PaymentApis

open TxStore

/-! ## `middleware/validate.ts` and `transfers/transfer.dto.ts` -/

/-- A rejected field, with the message where the schema gives one. -/
structure FieldError where
  path : String
  message : Option String
deriving DecidableEq

structure ValidationError where
  details : List FieldError
deriving DecidableEq

def validateBody {α : Type} (schema : Json → Except (List FieldError) α) (body : Json) :
    Except ValidationError α :=
  match schema body with
  | .ok data => .ok data
  | .error fieldErrors => .error ⟨fieldErrors⟩

/-- What the schema of a field makes of it: a value of another type ends the
parse, one that fails a check of its own type does not. -/
inductive Parsed (α β : Type)
  | aborted
  | dirty (value : α)
  | valid (value : β)

namespace Parsed

variable {α β : Type}

def isAborted : Parsed α β → Bool
  | aborted => true
  | _ => false

def isValid : Parsed α β → Bool
  | valid _ => true
  | _ => false

end Parsed

/-- `z.string().uuid()`. -/
def uuidField (name : String) (body : Json) : Parsed Text { t : Text // isUuidText t = true } :=
  match body.member name.toList with
  | some (.string s) => if h : isUuidText s = true then .valid ⟨s, h⟩ else .dirty s
  | _ => .aborted

def Parsed.text : Parsed Text { t : Text // isUuidText t = true } → Text
  | aborted => []
  | dirty s => s
  | valid s => s.1

/-- `z.number().int().positive()`. -/
def positiveIntField (name : String) (body : Json) : Parsed Text IntDouble :=
  match body.member name.toList with
  | some (.number (.int x)) => .valid x
  | some (.number (.other text)) => .dirty text
  | _ => .aborted

/-- What the `.refine` adds. -/
def sameWallet : FieldError :=
  ⟨"toWalletId", some "fromWalletId and toWalletId must be different"⟩

/-- Unknown members are stripped. The `.refine` runs unless a field has aborted. -/
def createTransferSchema (body : Json) : Except (List FieldError) CreateTransferDto :=
  match body with
  | .object _ =>
    match uuidField "fromWalletId" body, uuidField "toWalletId" body,
      positiveIntField "amount" body with
    | .valid fromWalletId, .valid toWalletId, .valid amount =>
      if h : fromWalletId.1 ≠ toWalletId.1 then
        .ok ⟨fromWalletId.1, toWalletId.1, amount, fromWalletId.2, toWalletId.2, h⟩
      else .error [sameWallet]
    | fromWalletId, toWalletId, amount =>
      let rejected := [("fromWalletId", fromWalletId.isValid), ("toWalletId", toWalletId.isValid),
        ("amount", amount.isValid)].filter (fun x => !x.2)
      let refined := !fromWalletId.isAborted && !toWalletId.isAborted && !amount.isAborted &&
        decide (fromWalletId.text = toWalletId.text)
      .error (rejected.map (fun x => ⟨x.1, none⟩) ++ if refined then [sameWallet] else [])
  | _ => .error []

/-! ## `middleware/idempotency.ts` -/

/-- `JSON.stringify(req.body)`. -/
def CreateTransferDto.stringify (dto : CreateTransferDto) : Text :=
  objectText [("fromWalletId".toList, quote dto.fromWalletId),
    ("toWalletId".toList, quote dto.toWalletId), ("amount".toList, numText dto.amount.val)]

def hashRequest (sha256 : Text → Text) (method originalUrl : Text) (body : CreateTransferDto) :
    Text :=
  sha256 (method ++ ' ' :: originalUrl ++ ' ' :: body.stringify)

/-- A request as the client sends it. -/
structure TransferRequest where
  method : Text
  originalUrl : Text
  body : Json

/-! ## What a fingerprint says -/

theorem uuidField_eq_valid {name : String} {body : Json} {t : { t : Text // isUuidText t = true }}
    (h : uuidField name body = .valid t) : body.member name.toList = some (.string t.1) := by
  unfold uuidField at h
  split at h
  · rename_i s hmember
    split at h
    · cases h
      exact hmember
    · cases h
  · cases h

theorem positiveIntField_eq_valid {name : String} {body : Json} {x : IntDouble}
    (h : positiveIntField name body = .valid x) :
    body.member name.toList = some (.number (.int x)) := by
  unfold positiveIntField at h
  split at h
  · cases h
    assumption
  · cases h
  · cases h

theorem uuidField_text {name : String} {body : Json} {t : Text} :
    ((uuidField name body).isAborted = false ∧ (uuidField name body).text = t) ↔
      body.member name.toList = some (.string t) := by
  unfold uuidField
  split
  · rename_i s hmember
    rw [hmember]
    split <;> simp [Parsed.isAborted, Parsed.text]
  · rename_i hnone
    constructor
    · rintro ⟨habort, -⟩
      cases habort
    · intro h
      exact absurd h (hnone t)

theorem positiveIntField_isAborted {name : String} {body : Json} :
    (positiveIntField name body).isAborted = false ↔
      ∃ x, body.member name.toList = some (.number x) := by
  unfold positiveIntField
  split
  · rename_i x hmember
    simp [hmember, Parsed.isAborted]
  · rename_i text hmember
    simp [hmember, Parsed.isAborted]
  · rename_i hint hother
    constructor
    · intro habort
      cases habort
    · rintro ⟨x, hx⟩
      cases x with
      | int x => exact absurd hx (hint x)
      | other text => exact absurd hx (hother text)

/-- A rejected body is told that the wallets must be different just when both
are given, as one text, beside a number. -/
theorem sameWallet_reported {body : Json} {details : List FieldError}
    (h : createTransferSchema body = .error details) : sameWallet ∈ details ↔
      (∃ t, body.member "fromWalletId".toList = some (.string t) ∧
        body.member "toWalletId".toList = some (.string t)) ∧
      ∃ x, body.member "amount".toList = some (.number x) := by
  have hfields : ((∃ t, body.member "fromWalletId".toList = some (.string t) ∧
      body.member "toWalletId".toList = some (.string t)) ∧
      ∃ x, body.member "amount".toList = some (.number x)) ↔
      (uuidField "fromWalletId" body).isAborted = false ∧
      (uuidField "toWalletId" body).isAborted = false ∧
      (positiveIntField "amount" body).isAborted = false ∧
      (uuidField "fromWalletId" body).text = (uuidField "toWalletId" body).text := by
    simp only [← uuidField_text, ← positiveIntField_isAborted]
    constructor
    · rintro ⟨⟨t, ⟨hfrom, rfl⟩, hto, hsame⟩, hamount⟩
      exact ⟨hfrom, hto, hamount, hsame.symm⟩
    · rintro ⟨hfrom, hto, hamount, hsame⟩
      exact ⟨⟨_, ⟨hfrom, rfl⟩, hto, hsame.symm⟩, hamount⟩
  rw [hfields]
  unfold createTransferSchema at h
  split at h
  · split at h
    · rename_i f t a hfrom hto hamount
      split at h
      · cases h
      · rename_i hsame
        cases h
        simp [hfrom, hto, hamount, Parsed.isAborted, Parsed.text, not_not.mp hsame]
    · cases h
      -- the other entries have no message of the schema's own
      rw [List.mem_append, or_iff_right]
      · split
        · rename_i hrefined
          simpa [and_assoc] using hrefined
        · rename_i hrefined
          simpa [and_assoc] using hrefined
      · intro hmem
        obtain ⟨x, -, hx⟩ := List.mem_map.mp hmem
        cases congrArg FieldError.message hx
  · rename_i hnot
    cases h
    have hmember : ∀ name, body.member name = none := by
      intro name
      cases body with
      | object members => exact absurd rfl (hnot members)
      | _ => rfl
    simp [uuidField, hmember, Parsed.isAborted]

/-- What an accepted body has in the fields of the schema. -/
theorem createTransferSchema_members {body : Json} {dto : CreateTransferDto}
    (h : validateBody createTransferSchema body = .ok dto) :
    body.member "fromWalletId".toList = some (.string dto.fromWalletId) ∧
      body.member "toWalletId".toList = some (.string dto.toWalletId) ∧
      body.member "amount".toList = some (.number (.int dto.amount)) := by
  unfold validateBody at h
  split at h
  · rename_i data hdata
    cases h
    unfold createTransferSchema at hdata
    split at hdata
    · split at hdata
      · rename_i hfrom hto hamount
        split at hdata
        · cases hdata
          exact ⟨uuidField_eq_valid hfrom, uuidField_eq_valid hto, positiveIntField_eq_valid hamount⟩
        · cases hdata
      · cases hdata
    · cases hdata
  · cases h

theorem CreateTransferDto.stringify_eq (dto : CreateTransferDto) : dto.stringify =
    '{' :: (quote "fromWalletId".toList ++ ':' :: (quote dto.fromWalletId ++ ',' ::
      (quote "toWalletId".toList ++ ':' :: (quote dto.toWalletId ++ ',' ::
        (quote "amount".toList ++ ':' :: (numText dto.amount.val ++ ['}'])))))) := by
  simp only [stringify, objectText, List.intercalate, List.map_cons, List.map_nil,
    List.intersperse, List.flatten_cons, List.flatten_nil, List.append_assoc, List.cons_append,
    List.nil_append, List.append_nil]

/-- The body is read back from its text. -/
theorem CreateTransferDto.stringify_inj {a b : CreateTransferDto}
    (h : a.stringify = b.stringify) : a = b := by
  rw [stringify_eq, stringify_eq, List.cons_inj_right, List.append_cancel_left_eq,
    List.cons_inj_right] at h
  obtain ⟨hfrom, h⟩ := quote_append_inj h
  rw [List.cons_inj_right, List.append_cancel_left_eq, List.cons_inj_right] at h
  obtain ⟨hto, h⟩ := quote_append_inj h
  rw [List.cons_inj_right, List.append_cancel_left_eq, List.cons_inj_right] at h
  have hamount := numText_inj a.amount.exact b.amount.exact (List.append_cancel_right h)
  obtain ⟨fa, ta, ⟨xa, _, _, _⟩, _, _, _⟩ := a
  obtain ⟨fb, tb, ⟨xb, _, _, _⟩, _, _, _⟩ := b
  dsimp only at hfrom hto hamount
  subst hfrom hto hamount
  rfl

/-- Requests have the same fingerprint just when they are the same request: the
method, the URL and the three fields, however the client wrote the body. -/
theorem fingerprints_separate {sha256 : Text → Text} (hsha : Function.Injective sha256)
    {r q : TransferRequest} {dto dto' : CreateTransferDto}
    (hr : validateBody createTransferSchema r.body = .ok dto)
    (hq : validateBody createTransferSchema q.body = .ok dto')
    (hmethod : ' ' ∉ r.method) (hmethodq : ' ' ∉ q.method)
    (hurl : ' ' ∉ r.originalUrl) (hurlq : ' ' ∉ q.originalUrl) :
    hashRequest sha256 r.method r.originalUrl dto =
        hashRequest sha256 q.method q.originalUrl dto' ↔
      r.method = q.method ∧ r.originalUrl = q.originalUrl ∧
        ∀ name ∈ ["fromWalletId", "toWalletId", "amount"],
          r.body.member name.toList = q.body.member name.toList := by
  obtain ⟨hfrom, hto, hamount⟩ := createTransferSchema_members hr
  obtain ⟨hfrom', hto', hamount'⟩ := createTransferSchema_members hq
  simp only [List.forall_mem_cons, List.not_mem_nil, false_imp_iff, implies_true, and_true,
    hfrom, hto, hamount, hfrom', hto', hamount', Option.some.injEq, Json.string.injEq,
    Json.number.injEq, JsonNumber.int.injEq]
  constructor
  · intro h
    have hmaterial := hsha h
    rw [List.append_assoc, List.append_assoc, List.cons_append, List.cons_append] at hmaterial
    obtain ⟨hm, hrest⟩ := append_cons_inj hmethod hmethodq hmaterial
    obtain ⟨hu, hbody⟩ := append_cons_inj hurl hurlq hrest
    obtain rfl := CreateTransferDto.stringify_inj hbody
    exact ⟨hm, hu, rfl, rfl, rfl⟩
  · rintro ⟨hm, hu, hf, ht, ha⟩
    have hdto : dto = dto' := by
      cases dto
      cases dto'
      subst hf ht ha
      rfl
    rw [hm, hu, hdto]

/-- One transfer, written in two ways. -/
def transferBodies : Json × Json :=
  let f := ("fromWalletId".toList, Json.string (smallId '1'))
  let t := ("toWalletId".toList, Json.string (smallId '2'))
  let a := ("amount".toList, Json.number (.int fifty))
  (.object [f, t, a], .object [("note".toList, .null), a, t, f])

def transferDto : CreateTransferDto :=
  ⟨smallId '1', smallId '2', fifty, smallId_one, smallId_two, smallId_one_ne_two⟩

def material (url : String) : Text :=
  "POST ".toList ++ url.toList ++ ' ' :: transferDto.stringify

/-- The digests of the texts below; no other text is looked at. -/
def digestOf (t : Text) : Text :=
  if t = material "/transfers" then
    "a8d6c6b071ffe9722d70a39333aaa9ee336c3919929628cdd629d045dace3ec7".toList
  else if t = material "/transfers?retry=1" then
    "2193eb1ebf0d3d7f8bf6a560cb8200d68baefad0510a5368756a6027145a5d72".toList
  else 'x' :: t

theorem digestOf_injective : Function.Injective digestOf := by
  intro t u h
  unfold digestOf at h
  split_ifs at h with ht hu hu' ht' hu hu' hu hu'
  all_goals first
    | exact ht.trans hu.symm
    | exact ht'.trans hu'.symm
    | exact List.tail_eq_of_cons_eq h
    | exact absurd h (by decide +kernel)
    | exact absurd (List.head_eq_of_cons_eq h) (by decide +kernel)

theorem transferBodies_accepted :
    validateBody createTransferSchema transferBodies.1 = .ok transferDto ∧
      validateBody createTransferSchema transferBodies.2 = .ok transferDto := ⟨rfl, rfl⟩

theorem fingerprints_separate_fifty :
    hashRequest digestOf "POST".toList "/transfers".toList transferDto =
      hashRequest digestOf "POST".toList "/transfers".toList transferDto ∧
    hashRequest digestOf "POST".toList "/transfers".toList transferDto ≠
      hashRequest digestOf "POST".toList "/transfers?retry=1".toList transferDto := by
  obtain ⟨hplain, hextra⟩ := transferBodies_accepted
  constructor
  · refine (fingerprints_separate (r := ⟨"POST".toList, "/transfers".toList, transferBodies.1⟩)
      (q := ⟨"POST".toList, "/transfers".toList, transferBodies.2⟩) digestOf_injective hplain
      hextra (by decide) (by decide) (by decide) (by decide)).mpr ⟨rfl, rfl, ?_⟩
    simp only [List.forall_mem_cons, List.not_mem_nil, false_imp_iff, implies_true, and_true]
    exact ⟨rfl, rfl, rfl⟩
  · intro h
    have hsame := (fingerprints_separate
      (r := ⟨"POST".toList, "/transfers".toList, transferBodies.1⟩)
      (q := ⟨"POST".toList, "/transfers?retry=1".toList, transferBodies.2⟩) digestOf_injective
      hplain hextra (by decide) (by decide) (by decide) (by decide)).mp h
    exact absurd hsame.2.1 (by decide)

end PaymentApis
