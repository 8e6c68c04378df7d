import Vsql.Cli.JsonReader

/-!
# The text of a JSON file

A file is an array of objects, each of their values is a string, a number, a boolean or null.
What a string denotes is in UTF-8.
-/

namespace Vsql.Cli

open Foundation

/-! ## Numbers -/

def Digits (s : Bytes) : Prop := s ≠ [] ∧ ∀ c ∈ s, isDigit c

/-- A single zero, or digits that do not start with one. -/
def IntegerText (s : Bytes) : Prop := Digits s ∧ (s.head? = some (byte '0') → s = [byte '0'])

def FractionText (s : Bytes) : Prop := s = [] ∨ ∃ digits, Digits digits ∧ s = byte '.' :: digits

def ExponentText (s : Bytes) : Prop :=
  s = [] ∨ ∃ e sign digits, (e = byte 'e' ∨ e = byte 'E') ∧
    (sign = [] ∨ sign = [byte '-'] ∨ sign = [byte '+']) ∧ Digits digits ∧
      s = e :: sign ++ digits

/-- A number of RFC 8259. -/
def NumberText (s : Bytes) : Prop :=
  ∃ minus integer fraction exponent, (minus = [] ∨ minus = [byte '-']) ∧ IntegerText integer ∧
    FractionText fraction ∧ ExponentText exponent ∧ s = minus ++ integer ++ fraction ++ exponent

/-- Digits, signs, periods and exponents in any order, from a digit or a minus sign to a digit. -/
def LooseNumber (s : Bytes) : Prop :=
  (∀ c ∈ s, isDigit c ∨ c ∈ [byte '-', byte '+', byte '.', byte 'e', byte 'E']) ∧
    (∃ c, s.head? = some c ∧ (isDigit c ∨ c = byte '-')) ∧ ∃ c, s.getLast? = some c ∧ isDigit c

/-! ## Strings -/

/-- What may be in a file. -/
structure JsonRules where
  /-- The bytes that stand for themselves in a string. -/
  char : UInt8 → Prop
  number : Bytes → Prop
  /-- Whether an escape of a surrogate may be without its other half.  Escapes are paired from
  left to right. -/
  unpaired : Prop

/-- RFC 8259: control characters are escaped. -/
def JsonRules.rfc : JsonRules where
  char c := 0x20 ≤ c ∧ c ≠ byte '"' ∧ c ≠ byte '\\'
  number := NumberText
  unpaired := False

/-- What the reader takes. -/
def JsonRules.loose (unpaired : Prop) : JsonRules where
  char c := c ≠ byte '"' ∧ c ≠ byte '\\'
  number := LooseNumber
  unpaired := unpaired

def hexValue (digits : List Nat) : Nat := digits.foldl (fun n d => 16 * n + d) 0

/-- The four digits of an escape. -/
def HexText (s : Bytes) (code : Nat) : Prop :=
  ∃ digits : List Nat, digits.length = 4 ∧ s.map hexDigit? = digits.map some ∧
    code = hexValue digits

def unicodeEscape (hex : Bytes) : Bytes := byte '\\' :: byte 'u' :: hex

def IsHigh (code : Nat) : Prop := 0xd800 ≤ code ∧ code < 0xdc00

def IsLow (code : Nat) : Prop := 0xdc00 ≤ code ∧ code < 0xe000

/-- A character in UTF-8. -/
def utf8 (code : Nat) : Bytes := String.utf8EncodeChar (Char.ofNat code)

theorem toNat_ofNat {code : Nat} (h : code.isValidChar) : (Char.ofNat code).val.toNat = code := by
  unfold Char.ofNat
  rw [dif_pos h]
  rfl

theorem utf32ToStr_eq {code : Nat} (hsurrogate : ¬IsHigh code ∧ ¬IsLow code)
    (hlt : code < 0x110000) : utf32ToStr code = utf8 code := by
  have hvalid : code.isValidChar := by
    unfold IsHigh IsLow at hsurrogate
    unfold Nat.isValidChar
    omega
  unfold utf32ToStr utf8 String.utf8EncodeChar
  rw [toNat_ofNat hvalid]
  dsimp only
  split_ifs <;> first | omega | skip
  all_goals simp only [List.cons.injEq, and_true]
  · exact ⟨congrArg _ (by omega), congrArg _ (by omega)⟩
  · exact ⟨congrArg _ (by omega), congrArg _ (by omega), congrArg _ (by omega)⟩
  · exact ⟨congrArg _ (by omega), congrArg _ (by omega), congrArg _ (by omega),
      congrArg _ (by omega)⟩

theorem hexDigit?_lt {c : UInt8} {d : Nat} (h : hexDigit? c = some d) : d < 16 := by
  have hall : ∀ n < 256, ∀ d ∈ hexDigit? (UInt8.ofNat n), d < 16 := by decide +kernel
  apply hall c.toNat c.toNat_lt d
  rw [UInt8.ofNat_toNat]
  exact h

theorem hexValue_lt {hex : Bytes} {ds : List Nat} (h : hex.map hexDigit? = ds.map some) :
    hexValue ds < 16 ^ ds.length := by
  have hstep : ∀ n : Nat, ds.foldl (fun n d => 16 * n + d) n < (n + 1) * 16 ^ ds.length := by
    induction ds generalizing hex with
    | nil =>
        intro n
        simp
    | cons d ds ih =>
        intro n
        cases hex with
        | nil => cases h
        | cons c hex =>
            rw [List.map_cons, List.map_cons, List.cons.injEq] at h
            have hd := hexDigit?_lt h.1
            have hrest := ih h.2 (16 * n + d)
            have hle : (16 * n + d + 1) * 16 ^ ds.length ≤ (n + 1) * 16 * 16 ^ ds.length :=
              Nat.mul_le_mul_right _ (by omega)
            rw [List.foldl_cons, List.length_cons, Nat.pow_succ']
            rw [← Nat.mul_assoc]
            omega
  have hzero := hstep 0
  rwa [Nat.zero_add, Nat.one_mul] at hzero

theorem HexText.lt {hex : Bytes} {code : Nat} (h : HexText hex code) : code < 0x10000 := by
  obtain ⟨ds, hlength, hds, rfl⟩ := h
  have hlt := hexValue_lt hds
  rwa [hlength] at hlt

/-- What is between the quotes, and what it denotes. -/
inductive StringText (rules : JsonRules) : Bytes → Bytes → Prop
  | nil : StringText rules [] []
  | char {c : UInt8} {body text : Bytes} (hc : rules.char c) (rest : StringText rules body text) :
      StringText rules (c :: body) (c :: text)
  | escape {e c : UInt8} {body text : Bytes} (hescape : simpleEscape? e = some c)
      (rest : StringText rules body text) :
      StringText rules (byte '\\' :: e :: body) (c :: text)
  | unicode {hex : Bytes} {code : Nat} {body text : Bytes} (hhex : HexText hex code)
      (hcode : ¬IsHigh code ∧ ¬IsLow code) (rest : StringText rules body text) :
      StringText rules (unicodeEscape hex ++ body) (utf8 code ++ text)
  | pair {hex hex' : Bytes} {high low : Nat} {body text : Bytes} (hhex : HexText hex high)
      (hhigh : IsHigh high) (hhex' : HexText hex' low) (hlow : IsLow low)
      (rest : StringText rules body text) :
      StringText rules (unicodeEscape hex ++ unicodeEscape hex' ++ body)
        (utf8 (0x10000 + (high - 0xd800) * 0x400 + (low - 0xdc00)) ++ text)
  /-- It denotes nothing in particular. -/
  | low {hex : Bytes} {code : Nat} {body text : Bytes} (hrules : rules.unpaired)
      (hhex : HexText hex code) (hlow : IsLow code) (any : Bytes)
      (rest : StringText rules body text) :
      StringText rules (unicodeEscape hex ++ body) (any ++ text)
  | high {hex : Bytes} {code : Nat} {body text : Bytes} (hrules : rules.unpaired)
      (hhex : HexText hex code) (hhigh : IsHigh code) (halone : ¬unicodeEscape [] <+: body)
      (any : Bytes) (rest : StringText rules body text) :
      StringText rules (unicodeEscape hex ++ body) (any ++ text)
  /-- A high surrogate and the escape of something else, which are taken together. -/
  | mismatched {hex hex' : Bytes} {high code : Nat} {body text : Bytes}
      (hrules : rules.unpaired) (hhex : HexText hex high) (hhigh : IsHigh high)
      (hhex' : HexText hex' code) (hcode : ¬IsLow code) (any : Bytes)
      (rest : StringText rules body text) :
      StringText rules (unicodeEscape hex ++ unicodeEscape hex' ++ body) (any ++ text)

/-! ## Values, objects and arrays -/

def Space (s : Bytes) : Prop := ∀ c ∈ s, isJsonSpace c

def quoted (body : Bytes) : Bytes := byte '"' :: body ++ [byte '"']

@[simp] theorem length_quoted (body : Bytes) : (quoted body).length = body.length + 2 := by
  simp [quoted]

inductive ValueText (rules : JsonRules) : Bytes → ReadCell → Prop
  | string {body text : Bytes} (hbody : StringText rules body text) :
      ValueText rules (quoted body) ⟨.value, text⟩
  | number {s : Bytes} (hs : rules.number s) : ValueText rules s ⟨.value, s⟩
  | true : ValueText rules (bytesOf "true") ⟨.value, bytesOf "TRUE"⟩
  | false : ValueText rules (bytesOf "false") ⟨.value, bytesOf "FALSE"⟩
  | null : ValueText rules (bytesOf "null") ⟨.null, []⟩

inductive MemberText (rules : JsonRules) : Bytes → Bytes × ReadCell → Prop
  | intro {s₁ s₂ s₃ s₄ body name value : Bytes} {cell : ReadCell} (h₁ : Space s₁)
      (hname : StringText rules body name) (h₂ : Space s₂) (h₃ : Space s₃)
      (hvalue : ValueText rules value cell) (h₄ : Space s₄) :
      MemberText rules (s₁ ++ quoted body ++ s₂ ++ byte ':' :: s₃ ++ value ++ s₄) (name, cell)

inductive MembersText (rules : JsonRules) : Bytes → List (Bytes × ReadCell) → Prop
  | one {s : Bytes} {m : Bytes × ReadCell} (hm : MemberText rules s m) : MembersText rules s [m]
  | cons {s s' : Bytes} {m : Bytes × ReadCell} {members : List (Bytes × ReadCell)}
      (hm : MemberText rules s m) (rest : MembersText rules s' members) :
      MembersText rules (s ++ byte ',' :: s') (m :: members)

/-- Of two members with one name, the later one counts. -/
def objectOf (members : List (Bytes × ReadCell)) : JsonObject :=
  members.foldl (fun object m => object.set m.1 m.2) .empty

inductive ObjectText (rules : JsonRules) : Bytes → JsonObject → Prop
  | empty {s : Bytes} (hs : Space s) : ObjectText rules (byte '{' :: s ++ [byte '}']) .empty
  | members {s : Bytes} {members : List (Bytes × ReadCell)} (hs : MembersText rules s members) :
      ObjectText rules (byte '{' :: s ++ [byte '}']) (objectOf members)

inductive RowsText (rules : JsonRules) : Bytes → List JsonObject → Prop
  | one {s₁ s₂ s : Bytes} {object : JsonObject} (h₁ : Space s₁) (hs : ObjectText rules s object)
      (h₂ : Space s₂) : RowsText rules (s₁ ++ s ++ s₂) [object]
  | cons {s₁ s₂ s s' : Bytes} {object : JsonObject} {objects : List JsonObject} (h₁ : Space s₁)
      (hs : ObjectText rules s object) (h₂ : Space s₂) (rest : RowsText rules s' objects) :
      RowsText rules (s₁ ++ s ++ s₂ ++ byte ',' :: s') (object :: objects)

inductive FileText (rules : JsonRules) : Bytes → List JsonObject → Prop
  | empty {s₁ s₂ s₃ : Bytes} (h₁ : Space s₁) (h₂ : Space s₂) (h₃ : Space s₃) :
      FileText rules (s₁ ++ byte '[' :: s₂ ++ byte ']' :: s₃) []
  | rows {s₁ s s₃ : Bytes} {objects : List JsonObject} (h₁ : Space s₁)
      (hs : RowsText rules s objects) (h₃ : Space s₃) :
      FileText rules (s₁ ++ byte '[' :: s ++ byte ']' :: s₃) objects

/-! ## White space before an object -/

theorem Space.append {s s' : Bytes} (h : Space s) (h' : Space s') : Space (s ++ s') := by
  intro c hc
  rw [List.mem_append] at hc
  exact hc.elim (h c) (h' c)

theorem MemberText.space {rules : JsonRules} {s s' : Bytes} {m : Bytes × ReadCell} (hs : Space s)
    (h : MemberText rules s' m) : MemberText rules (s ++ s') m := by
  cases h with
  | @intro s₁ s₂ s₃ s₄ body name value cell h₁ hname h₂ h₃ hvalue h₄ =>
      have hmore := MemberText.intro (hs.append h₁) hname h₂ h₃ hvalue h₄
      simpa [List.append_assoc] using hmore

theorem MembersText.space {rules : JsonRules} {s s' : Bytes} {members : List (Bytes × ReadCell)}
    (hs : Space s) (h : MembersText rules s' members) : MembersText rules (s ++ s') members := by
  cases h with
  | one hm => exact .one (hm.space hs)
  | cons hm rest =>
      rw [← List.append_assoc]
      exact .cons (hm.space hs) rest

end Vsql.Cli
