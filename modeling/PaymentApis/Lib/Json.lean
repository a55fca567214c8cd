import PaymentApis.Lib.Double

/-!
# JSON texts

`Json` is what `JSON.parse` reads from a text; `quote` and `objectText` are what
`JSON.stringify` writes. The end of a quoted string can be told from the text
alone, so a text that starts with one determines it.
-/

namespace TxStore

/-- A number, as the double it denotes; one that is no positive integer by its
text. -/
inductive JsonNumber
  | int (x : IntDouble)
  | other (text : Text)
deriving DecidableEq

inductive Json
  | null
  | bool (b : Bool)
  | number (x : JsonNumber)
  | string (s : Text)
  | array (xs : List Json)
  | object (members : List (Text × Json))

/-- The member of a name; of several, the last. -/
def Json.member (name : Text) : Json → Option Json
  | .object members => (members.reverse.find? (fun m => decide (m.1 = name))).map Prod.snd
  | _ => none

def lowerHex (n : ℕ) : Char := "0123456789abcdef".toList.getD n '0'

def lowerHexValue (c : Char) : ℕ := "0123456789abcdef".toList.idxOf c

theorem lowerHexValue_lowerHex : ∀ n < 16, lowerHexValue (lowerHex n) = n := by decide

/-- A character inside a quoted string. -/
def escapeChar (c : Char) : Text :=
  if c = '"' then ['\\', '"']
  else if c = '\\' then ['\\', '\\']
  else if c = '\x08' then ['\\', 'b']
  else if c = '\x0c' then ['\\', 'f']
  else if c = '\n' then ['\\', 'n']
  else if c = '\r' then ['\\', 'r']
  else if c = '\t' then ['\\', 't']
  else if c.toNat < 32 then
    ['\\', 'u', '0', '0', lowerHex (c.toNat / 16), lowerHex (c.toNat % 16)]
  else [c]

def escape (s : Text) : Text := s.flatMap escapeChar

def quote (s : Text) : Text := '"' :: (escape s ++ ['"'])

/-- An object, from its names and the texts of its values. -/
def objectText (members : List (Text × Text)) : Text :=
  '{' :: (List.intercalate [','] (members.map (fun m => quote m.1 ++ ':' :: m.2)) ++ ['}'])

/-! ## A quoted string can be read back -/

/-- The first character of an escaped text, and what follows it. -/
def unescape : Text → Option (Char × Text)
  | [] => none
  | c :: t =>
    if c = '"' then none
    else if c = '\\' then
      match t with
      | 'u' :: '0' :: '0' :: a :: b :: u =>
        some (Char.ofNat (16 * lowerHexValue a + lowerHexValue b), u)
      | 'b' :: u => some ('\x08', u)
      | 'f' :: u => some ('\x0c', u)
      | 'n' :: u => some ('\n', u)
      | 'r' :: u => some ('\r', u)
      | 't' :: u => some ('\t', u)
      | a :: u => some (a, u)
      | [] => none
    else some (c, t)

theorem unescape_escapeChar (c : Char) (u : Text) : unescape (escapeChar c ++ u) = some (c, u) := by
  unfold escapeChar
  split_ifs with hquote hback hb hf hn hr ht hlow
  · simp [unescape, hquote]
  · simp [unescape, hback]
  · simp [unescape, hb]
  · simp [unescape, hf]
  · simp [unescape, hn]
  · simp [unescape, hr]
  · simp [unescape, ht]
  · have hhigh : lowerHexValue (lowerHex (c.toNat / 16)) = c.toNat / 16 :=
      lowerHexValue_lowerHex _ (by omega)
    have hmod : lowerHexValue (lowerHex (c.toNat % 16)) = c.toNat % 16 :=
      lowerHexValue_lowerHex _ (by omega)
    have hsum : 16 * (c.toNat / 16) + c.toNat % 16 = c.toNat := by omega
    simp [unescape, hhigh, hmod, hsum]
  · simp [unescape, hquote, hback]

theorem unescape_quote (u : Text) : unescape ('"' :: u) = none := by simp [unescape]

/-- An escaped text up to its closing quote determines the string. -/
theorem escape_append_inj : ∀ {s s' r r' : Text},
    escape s ++ '"' :: r = escape s' ++ '"' :: r' → s = s' ∧ r = r'
  | [], [], _, _, h => ⟨rfl, List.cons_inj_right _ |>.mp h⟩
  | [], c' :: s', r, r', h => by
      have hread := congrArg unescape h
      simp only [escape, List.flatMap_nil, List.nil_append, List.flatMap_cons, List.append_assoc,
        unescape_quote, unescape_escapeChar] at hread
      cases hread
  | c :: s, [], r, r', h => by
      have hread := congrArg unescape h
      simp only [escape, List.flatMap_nil, List.nil_append, List.flatMap_cons, List.append_assoc,
        unescape_quote, unescape_escapeChar] at hread
      cases hread
  | c :: s, c' :: s', r, r', h => by
      have hread := congrArg unescape h
      simp only [escape, List.flatMap_cons, List.append_assoc, unescape_escapeChar,
        Option.some.injEq, Prod.mk.injEq] at hread
      obtain ⟨rfl, hrest⟩ := hread
      obtain ⟨rfl, hr⟩ := escape_append_inj hrest
      exact ⟨rfl, hr⟩

theorem quote_append_inj {s s' r r' : Text} (h : quote s ++ r = quote s' ++ r') :
    s = s' ∧ r = r' := by
  simp only [quote, List.cons_append, List.append_assoc, List.nil_append, List.cons.injEq,
    true_and] at h
  exact escape_append_inj h

/-! ## Numbers -/

theorem natText_inj {m n : ℕ} (h : natText m = natText n) : m = n := by
  have hparse := congrArg parseNat h
  rwa [parseNat_natText, parseNat_natText, Option.some.injEq] at hparse


/-- A text is cut in one way only at the first place of a character. -/
theorem append_cons_inj {c : Char} : ∀ {a b u v : Text}, c ∉ a → c ∉ b →
    a ++ c :: u = b ++ c :: v → a = b ∧ u = v
  | [], [], _, _, _, _, h => ⟨rfl, List.tail_eq_of_cons_eq h⟩
  | [], y :: b, _, _, _, hb, h => absurd (List.head_eq_of_cons_eq h ▸ List.mem_cons_self) hb
  | x :: a, [], _, _, ha, _, h => absurd (List.head_eq_of_cons_eq h ▸ List.mem_cons_self) ha
  | x :: a, y :: b, _, _, ha, hb, h => by
      obtain ⟨rfl, hrest⟩ := List.cons_eq_cons.mp h
      obtain ⟨rfl, htail⟩ := append_cons_inj (fun hmem => ha (List.mem_cons_of_mem _ hmem))
        (fun hmem => hb (List.mem_cons_of_mem _ hmem)) hrest
      exact ⟨rfl, htail⟩

/-- The digits without the zeros at the end. -/
theorem digits_split (ds : Text) :
    ds = (ds.reverse.dropWhile (· == '0')).reverse ++
      List.replicate (ds.length - ((ds.reverse.dropWhile (· == '0')).reverse).length) '0' := by
  have hsplit := List.takeWhile_append_dropWhile (p := fun c => c == '0') (l := ds.reverse)
  have hzeros : ds.reverse.takeWhile (· == '0') =
      List.replicate (ds.reverse.takeWhile (· == '0')).length '0' := by
    rw [List.eq_replicate_iff]
    refine ⟨rfl, ?_⟩
    intro c hc
    have hall := List.all_eq_true.mp (List.all_takeWhile (p := fun c : Char => c == '0')) c hc
    simpa using hall
  have hlength := congrArg List.length hsplit
  simp only [List.length_append, List.length_reverse] at hlength
  have hds := congrArg List.reverse hsplit
  rw [List.reverse_append, List.reverse_reverse] at hds
  conv_lhs => rw [← hds, hzeros, List.reverse_replicate]
  congr 2
  rw [List.length_reverse]
  omega

/-- The significant digits, with a point after the first. -/
def mantissa : Text → Text
  | [] => []
  | [d] => [d]
  | d :: rest => d :: '.' :: rest

theorem expText_eq (v : ℕ) : expText v =
    mantissa (((natText v).reverse.dropWhile (· == '0')).reverse) ++
      'e' :: '+' :: natText ((natText v).length - 1) := by
  simp only [expText]
  generalize ((natText v).reverse.dropWhile (· == '0')).reverse = sig
  rcases sig with - | ⟨d, - | ⟨c, rest⟩⟩ <;> rfl

theorem mantissa_digits {ds : Text} (h : ds.all Char.isDigit = true) :
    (mantissa ds).filter Char.isDigit = ds ∧ 'e' ∉ mantissa ds := by
  rw [List.all_eq_true] at h
  have hfilter : ∀ t : Text, (∀ c ∈ t, c.isDigit = true) → t.filter Char.isDigit = t :=
    fun t ht => List.filter_eq_self.mpr ht
  have he : 'e' ∉ ds := fun hmem => Bool.false_ne_true (h 'e' hmem)
  match ds, h, he with
  | [], _, _ => exact ⟨rfl, List.not_mem_nil⟩
  | [d], h, he => exact ⟨hfilter [d] h, he⟩
  | d :: c :: rest, h, he =>
    have hd : d.isDigit = true := h d List.mem_cons_self
    have hrest := hfilter (c :: rest) (fun x hx => h x (List.mem_cons_of_mem _ hx))
    constructor
    · show (d :: '.' :: c :: rest).filter Char.isDigit = d :: c :: rest
      rw [List.filter_cons_of_pos hd, List.filter_cons_of_neg (by decide), hrest]
    · simpa [mantissa] using he

theorem expText_inj {v w : ℕ} (h : expText v = expText w) : v = w := by
  have hdigits : ∀ n : ℕ,
      ((natText n).reverse.dropWhile (· == '0')).reverse.all Char.isDigit = true := by
    intro n
    have hall := natText_digits n
    rw [List.all_eq_true] at hall ⊢
    intro c hc
    exact hall c (List.mem_reverse.mp ((List.dropWhile_suffix _).mem (List.mem_reverse.mp hc)))
  obtain ⟨hv, hev⟩ := mantissa_digits (hdigits v)
  obtain ⟨hw, hew⟩ := mantissa_digits (hdigits w)
  rw [expText_eq, expText_eq] at h
  obtain ⟨hmantissa, htail⟩ := append_cons_inj hev hew h
  have hsig : ((natText v).reverse.dropWhile (· == '0')).reverse =
      ((natText w).reverse.dropWhile (· == '0')).reverse := by
    rw [← hv, ← hw, hmantissa]
  have hlength : (natText v).length = (natText w).length := by
    have hexp := natText_inj (List.cons_inj_right _ |>.mp htail)
    have hposv := List.length_pos_iff.mpr (natText_ne_nil v)
    have hposw := List.length_pos_iff.mpr (natText_ne_nil w)
    omega
  apply natText_inj
  rw [digits_split (natText v), digits_split (natText w), hsig, hlength]

/-- A number is written as no other is. -/
theorem numText_inj {x y : ℕ} (hx : roundDouble x = x) (hy : roundDouble y = y)
    (h : numText x = numText y) : x = y := by
  have hplain : ∀ n m : ℕ, natText n ≠ expText m := by
    intro n m hsame
    have hparse := parseInt_natText n
    rw [hsame, parseInt_expText] at hparse
    cases hparse
  have hshortest : shortest x = shortest y := by
    unfold numText at h
    split_ifs at h
    · exact natText_inj h
    · exact absurd h (hplain _ _)
    · exact absurd h.symm (hplain _ _)
    · exact expText_inj h
  rw [← roundDouble_shortest hx, ← roundDouble_shortest hy, hshortest]

end TxStore
