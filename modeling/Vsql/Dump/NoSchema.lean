import Vsql.Dump.Definition

/-!
# A dump without schemas

The schema is taken off the columns of a table in its definition.  The text is looked through for
the schema and the name of the table, and the apostrophes so far say whether it is in a string.
-/

namespace Vsql.Dump

open Foundation Lexer Identifier

/-! ## Taking the schema off -/

/-- The schema and the table, each as it is or delimited, and what is left of them. -/
def prefixes (name : Identifier) : List (Text × Text) :=
  [name.schemaName, delimitIdentifier name.schemaName].flatMap fun schema =>
    [name.entityName, delimitIdentifier name.entityName].map fun table =>
      (schema ++ '.' :: (table ++ ['.']), table ++ ['.'])

def toggled (c : Char) (inString : Bool) : Bool := if c = '\'' then !inString else inString

/-- The prefix that the text starts with, if it is looked for. -/
def found (prefixes : List (Text × Text)) (prev : Option Char) (inString : Bool) (text : Text) :
    Option (Text × Text) :=
  if !inString && isStart prev then prefixes.find? fun p => p.1.isPrefixOf text else none

/-- `skip` is how many characters of a prefix are still to be left out. -/
def rewriteFrom (prefixes : List (Text × Text)) :
    (prev : Option Char) → (inString : Bool) → (skip : Nat) → Text → Text
  | _, _, _, [] => []
  | _, inString, skip + 1, c :: rest => rewriteFrom prefixes (some c) inString skip rest
  | prev, inString, 0, c :: rest =>
      let inString := toggled c inString
      match found prefixes prev inString (c :: rest) with
      | some p => p.2 ++ rewriteFrom prefixes (some c) inString (p.1.length - 1) rest
      | none => c :: rewriteFrom prefixes (some c) inString 0 rest

def outputDefinition (noSchema : Bool) (definition : Text) (name : Identifier) : Text :=
  if noSchema then rewriteFrom (prefixes name) none false 0 definition else definition

/-! ## What is to be taken off -/

/-- A column of the table that is qualified with the schema. -/
def isQualified (name : Identifier) : List NamePart → Bool
  | schema :: table :: _ => schema.value = name.schemaName ∧ table.value = name.entityName
  | _ => false

def dropQualifier (name : Identifier) (qualifier : List NamePart) : List NamePart :=
  if isQualified name qualifier then qualifier.tail else qualifier

def dropSchema (name : Identifier) : Piece → Piece
  | .name qualifier last => .name (dropQualifier name qualifier) last
  | piece => piece

/-! ## Where the code looks -/

def NoPrefix (name : Identifier) (text : Text) : Prop := ∀ p ∈ prefixes name, ¬p.1 <+: text

instance (name : Identifier) (text : Text) : Decidable (NoPrefix name text) :=
  inferInstanceAs (Decidable (∀ p ∈ prefixes name, ¬p.1 <+: text))

/-- In a text that comes before `rest`, no prefix is at a place where a name can start after an
even number of apostrophes. -/
def Still (name : Identifier) (rest : Text) : Bool → Option Char → Text → Prop
  | _, _, [] => True
  | inString, prev, c :: text =>
      (toggled c inString = false → isStart prev → NoPrefix name (c :: (text ++ rest))) ∧
        Still name rest (toggled c inString) (some c) text

instance decidableStill (name : Identifier) (rest : Text) : (inString : Bool) →
    (prev : Option Char) → (text : Text) → Decidable (Still name rest inString prev text)
  | _, _, [] => instDecidableTrue
  | inString, _, c :: text =>
      have := decidableStill name rest (toggled c inString) (some c) text
      inferInstanceAs (Decidable ((_ → _ → _) ∧ _))

/-- Whether the number of apostrophes is odd, with those of the text. -/
def oddAfter (inString : Bool) (text : Text) : Bool :=
  text.foldl (fun odd c => toggled c odd) inString

/-- What comes after the schema and the table of a column that is qualified with them. -/
def afterTable (name : Identifier) : Piece → Option Piece
  | .name qualifier last =>
      if isQualified name qualifier then some (.name (qualifier.drop 2) last) else none
  | _ => none

/-- The prefixes are where the columns are that are qualified with the schema, each of them after
an even number of apostrophes, and nowhere else. -/
def Told (name : Identifier) : Bool → Option Char → List Piece → Prop
  | _, _, [] => True
  | odd, prev, piece :: pieces =>
      match afterTable name piece with
      | some column =>
          odd = false ∧ Still name (textOf pieces) false (some '.') column.text ∧
            Told name (oddAfter false column.text) (lastOf (some '.') column.text) pieces
      | none =>
          Still name (textOf pieces) odd prev piece.text ∧
            Told name (oddAfter odd piece.text) (lastOf prev piece.text) pieces

instance decidableTold (name : Identifier) : (odd : Bool) → (prev : Option Char) →
    (pieces : List Piece) → Decidable (Told name odd prev pieces)
  | _, _, [] => instDecidableTrue
  | odd, prev, piece :: pieces =>
      have := fun odd prev => decidableTold name odd prev pieces
      match hpiece : afterTable name piece with
      | some column =>
          decidable_of_iff (odd = false ∧ Still name (textOf pieces) false (some '.') column.text ∧
            Told name (oddAfter false column.text) (lastOf (some '.') column.text) pieces)
            (by rw [Told, hpiece])
      | none =>
          decidable_of_iff (Still name (textOf pieces) odd prev piece.text ∧
            Told name (oddAfter odd piece.text) (lastOf prev piece.text) pieces)
            (by rw [Told, hpiece])

/-! ## The prefixes -/

theorem not_prefix_doubled (s text : Text) (n : Nat) :
    ¬s ++ ['.'] <+: List.replicate (n + 1) '"' ++ (doubled '"' s ++ text) := by
  induction s generalizing n with
  | nil =>
      rw [List.replicate_succ, List.nil_append, List.cons_append, List.cons_prefix_cons]
      exact fun h => absurd h.1 (by decide)
  | cons c s ih =>
      intro h
      rw [List.replicate_succ, List.cons_append, List.cons_append, List.cons_prefix_cons] at h
      obtain ⟨rfl, h⟩ := h
      apply ih (n + 1)
      have htwo : List.replicate n '"' ++ (doubled '"' ('"' :: s) ++ text) =
          List.replicate (n + 1 + 1) '"' ++ (doubled '"' s ++ text) := by
        rw [doubled, if_pos rfl, List.replicate_add n 2]
        simp
      rwa [htwo] at h

/-- A name and a period are not the start of the name when it's delimited. -/
theorem not_prefix_delimitIdentifier (s text rest : Text) :
    ¬s ++ '.' :: rest <+: delimitIdentifier s ++ text := by
  intro h
  apply not_prefix_doubled s ('"' :: text) 0
  have hstart : s ++ ['.'] <+: s ++ '.' :: rest := ⟨rest, by simp⟩
  have hshort := hstart.trans h
  simpa [delimitIdentifier] using hshort

/-- A way to write the schema and the table, with what is left of it. -/
def written (schema table : Text) : Text × Text :=
  (schema ++ '.' :: (table ++ ['.']), table ++ ['.'])

theorem prefixes_eq (name : Identifier) :
    prefixes name =
      [written name.schemaName name.entityName,
        written name.schemaName (delimitIdentifier name.entityName),
        written (delimitIdentifier name.schemaName) name.entityName,
        written (delimitIdentifier name.schemaName) (delimitIdentifier name.entityName)] := rfl

/-- Only the way that they are written is found. -/
theorem find?_prefixes (name : Identifier) {schema table : NamePart} {qualifier : List NamePart}
    (hname : isQualified name (schema :: table :: qualifier)) (rest : Text) :
    (prefixes name).find? (fun p => p.1.isPrefixOf
        (schema.text ++ '.' :: (table.text ++ '.' :: rest))) =
      some (written schema.text table.text) := by
  obtain ⟨hschema, htable⟩ := of_decide_eq_true hname
  have hyes : ∀ schema table : Text, (written schema table).1.isPrefixOf
      (schema ++ '.' :: (table ++ '.' :: rest)) = true := by
    intro schema table
    rw [List.isPrefixOf_iff_prefix]
    exact ⟨rest, by simp [written]⟩
  have hschemaNo : ∀ s table text : Text,
      (written s table).1.isPrefixOf (delimitIdentifier s ++ text) = false := by
    intro s table text
    rw [← Bool.not_eq_true, List.isPrefixOf_iff_prefix]
    exact not_prefix_delimitIdentifier s text _
  have htableNo : ∀ schema t : Text, (written schema t).1.isPrefixOf
      (schema ++ '.' :: (delimitIdentifier t ++ '.' :: rest)) = false := by
    intro schema t
    rw [← Bool.not_eq_true, List.isPrefixOf_iff_prefix]
    unfold written
    rw [List.prefix_append_right_inj, List.cons_prefix_cons]
    exact fun h => not_prefix_delimitIdentifier t _ _ h.2
  rw [prefixes_eq, ← hschema, ← htable]
  cases schema with
  | regular schema =>
      cases table with
      | regular table => simp only [NamePart.text, NamePart.value, List.find?_cons, hyes]
      | delimited table =>
          simp only [NamePart.text, NamePart.value, List.find?_cons, hyes, htableNo]
  | delimited schema =>
      cases table with
      | regular table =>
          simp only [NamePart.text, NamePart.value, List.find?_cons, hyes, hschemaNo]
      | delimited table =>
          simp only [NamePart.text, NamePart.value, List.find?_cons, hyes, hschemaNo, htableNo]

theorem found_eq_some {prefixes : List (Text × Text)} {prev : Option Char} {inString : Bool}
    {text : Text} {p : Text × Text} (h : found prefixes prev inString text = some p) :
    inString = false ∧ isStart prev ∧ p ∈ prefixes ∧ p.1 <+: text := by
  unfold found at h
  split at h
  · next hlook =>
      simp only [Bool.and_eq_true, Bool.not_eq_true'] at hlook
      have hprefix := List.find?_some h
      exact ⟨hlook.1, hlook.2, List.mem_of_find?_eq_some h,
        List.isPrefixOf_iff_prefix.1 hprefix⟩
  · cases h

theorem found_eq_none {name : Identifier} {prev : Option Char} {inString : Bool} {text : Text} :
    found (prefixes name) prev inString text = none ↔
      (inString = false → isStart prev → NoPrefix name text) := by
  unfold found NoPrefix
  split
  · next hlook =>
      simp only [Bool.and_eq_true, Bool.not_eq_true'] at hlook
      simp only [List.find?_eq_none, List.isPrefixOf_iff_prefix, hlook, forall_const]
  · next hlook =>
      simp only [Bool.and_eq_true, Bool.not_eq_true'] at hlook
      exact iff_of_true rfl fun hout hstart => absurd ⟨hout, hstart⟩ hlook

/-! ## What the code cuts out -/

/-- The schema and its period. -/
def blocks (name : Identifier) : List Text :=
  [name.schemaName ++ ['.'], delimitIdentifier name.schemaName ++ ['.']]

theorem mem_prefixes {name : Identifier} {p : Text × Text} (h : p ∈ prefixes name) :
    ∃ c block, c :: block ∈ blocks name ∧ p.1 = c :: block ++ p.2 := by
  have hblock : ∀ {schema table : Text}, schema ++ ['.'] ∈ blocks name →
      ∃ c block, c :: block ∈ blocks name ∧
        (written schema table).1 = c :: block ++ (written schema table).2 := by
    intro schema table hschema
    cases schema with
    | nil => exact ⟨'.', [], hschema, rfl⟩
    | cons c schema => exact ⟨c, schema ++ ['.'], hschema, by simp [written]⟩
  have hschema : name.schemaName ++ ['.'] ∈ blocks name := List.mem_cons_self ..
  have hdelimited : delimitIdentifier name.schemaName ++ ['.'] ∈ blocks name :=
    List.mem_cons_of_mem _ (List.mem_cons_self ..)
  rw [prefixes_eq] at h
  simp only [List.mem_cons, List.not_mem_nil, or_false] at h
  obtain rfl | rfl | rfl | rfl := h
  · exact hblock hschema
  · exact hblock hschema
  · exact hblock hdelimited
  · exact hblock hdelimited

/-- The characters that are cut out.  `cut` is how many of a prefix are still to be cut out, and
`left` how many of it are left then. -/
def cutsFrom (prefixes : List (Text × Text)) :
    (prev : Option Char) → (inString : Bool) → (cut left : Nat) → Text → List Bool
  | _, _, _, _, [] => []
  | _, inString, cut + 1, left, c :: rest =>
      true :: cutsFrom prefixes (some c) inString cut left rest
  | _, inString, 0, left + 1, c :: rest =>
      false :: cutsFrom prefixes (some c) inString 0 left rest
  | prev, inString, 0, 0, c :: rest =>
      let inString := toggled c inString
      match found prefixes prev inString (c :: rest) with
      | some p =>
          true :: cutsFrom prefixes (some c) inString (p.1.length - p.2.length - 1) p.2.length rest
      | none => false :: cutsFrom prefixes (some c) inString 0 0 rest

theorem kept_cutsFrom (name : Identifier) {text : Text} {prev : Option Char} {inString : Bool}
    {cut left : Nat} (h : cut + left ≤ text.length) :
    kept (cutsFrom (prefixes name) prev inString cut left text) text =
      (text.drop cut).take left ++
        rewriteFrom (prefixes name) prev inString (cut + left) text := by
  induction text generalizing prev inString cut left with
  | nil => simp [cutsFrom, kept, rewriteFrom]
  | cons c rest ih =>
      rw [List.length_cons] at h
      match cut, left with
      | cut + 1, left =>
          have hskip : cut + 1 + left = cut + left + 1 := by omega
          rw [cutsFrom, kept, hskip, rewriteFrom, List.drop_succ_cons]
          exact ih (by omega)
      | 0, left + 1 =>
          rw [cutsFrom, kept, Nat.zero_add, rewriteFrom, List.drop_zero, List.take_succ_cons,
            ih (by omega), Nat.zero_add]
          rfl
      | 0, 0 =>
          rw [cutsFrom, rewriteFrom]
          split
          · next p hfound =>
              obtain ⟨-, -, hmem, hprefix⟩ := found_eq_some hfound
              obtain ⟨d, block, -, hp⟩ := mem_prefixes hmem
              obtain ⟨after, hafter⟩ := hprefix
              rw [hp, List.cons_append, List.cons_append] at hafter
              obtain ⟨rfl, rfl⟩ := List.cons.inj hafter
              have hcut : p.1.length - p.2.length - 1 = block.length := by
                rw [hp, List.length_append, List.length_cons]
                omega
              have hskip : p.1.length - 1 = block.length + p.2.length := by
                rw [hp, List.length_append, List.length_cons]
                omega
              rw [kept, hcut, hskip, ih (by simp)]
              simp
          · exact congrArg (c :: ·) (ih (by omega))

theorem cut_cutsFrom (name : Identifier) {text : Text} {prev : Option Char} {inString : Bool}
    {cut left : Nat} (h : cut + left ≤ text.length) :
    Cut (fun prev => isStart prev = true) (blocks name) prev (text.take cut) text
      (cutsFrom (prefixes name) prev inString cut left text) := by
  induction text generalizing prev inString cut left with
  | nil =>
      rw [List.take_nil]
      exact .nil
  | cons c rest ih =>
      rw [List.length_cons] at h
      match cut, left with
      | cut + 1, left =>
          have hrest : cut + left ≤ rest.length := by omega
          exact .more (ih hrest)
      | 0, left + 1 =>
          have hrest : 0 + left ≤ rest.length := by omega
          exact .keep (ih hrest)
      | 0, 0 =>
          rw [cutsFrom]
          split
          · next p hfound =>
              obtain ⟨-, hstart, hmem, hprefix⟩ := found_eq_some hfound
              obtain ⟨d, block, hblock, hp⟩ := mem_prefixes hmem
              obtain ⟨after, hafter⟩ := hprefix
              rw [hp, List.cons_append, List.cons_append] at hafter
              obtain ⟨rfl, rfl⟩ := List.cons.inj hafter
              have hcut : p.1.length - p.2.length - 1 = block.length := by
                rw [hp, List.length_append, List.length_cons]
                omega
              rw [hcut]
              refine .start hstart ?_ (ih (by simp))
              rwa [List.append_assoc, List.take_left]
          · have hrest : 0 + 0 ≤ rest.length := Nat.zero_le _
            exact .keep (ih hrest)

theorem countP_doubled (s : Text) :
    (doubled '"' s).countP (· ≠ '"') = s.countP (· ≠ '"') := by
  induction s with
  | nil => rfl
  | cons c s ih =>
      rw [doubled]
      split
      · next hquote => simp_all
      · simp only [List.countP_cons, ih]

theorem length_le_doubled (s : Text) : s.length ≤ (doubled '"' s).length := by
  induction s with
  | nil => exact Nat.zero_le _
  | cons c s ih =>
      rw [doubled]
      split
      · simp only [List.length_cons]
        omega
      · simp only [List.length_cons]
        omega

/-- Without its quotes the schema is only inside of the delimited one after a quote. -/
theorem separate_blocks (name : Identifier) :
    Separate (fun prev => isStart prev = true) (blocks name) where
  ends := by
    intro block hblock
    simp only [blocks, List.mem_cons, List.not_mem_nil, or_false] at hblock
    obtain rfl | rfl := hblock
    · rw [List.getLast?_concat]
      decide
    · rw [List.getLast?_concat]
      decide
  inside := by
    intro block hblock block' hblock' c hsuffix
    have hlength := hsuffix.length_le
    have hle := length_le_doubled name.schemaName
    simp only [blocks, List.mem_cons, List.not_mem_nil, or_false] at hblock hblock'
    obtain rfl | rfl := hblock <;> obtain rfl | rfl := hblock'
    · rw [List.length_cons] at hlength
      omega
    · simp [delimitIdentifier] at hlength
      omega
    · obtain ⟨front, hfront⟩ := hsuffix
      rw [← List.cons_append, ← List.append_assoc] at hfront
      have hcount := congrArg (List.countP (· ≠ '"')) (List.append_cancel_right hfront)
      rw [List.countP_append, List.countP_cons, delimitIdentifier, List.countP_cons,
        List.countP_append, countP_doubled] at hcount
      have hquote : c = '"' := by
        by_contra hne
        simp [hne] at hcount
        omega
      rw [hquote]
      decide
    · rw [List.length_cons] at hlength
      omega

/-! ## What is to be cut out -/

def droppedText (name : Identifier) : Piece → Text
  | .name (schema :: qualifier) _ =>
      if isQualified name (schema :: qualifier) then schema.text ++ ['.'] else []
  | _ => []

theorem text_eq_dropped (name : Identifier) (piece : Piece) :
    piece.text = droppedText name piece ++ (dropSchema name piece).text := by
  unfold droppedText
  split
  · next schema qualifier last =>
      rw [dropSchema, dropQualifier]
      split
      · simp [Piece.text, qualifierText_cons]
      · rfl
  · next hother =>
      cases piece with
      | name qualifier last =>
          cases qualifier with
          | nil => rfl
          | cons schema qualifier => exact (hother schema qualifier last rfl).elim
      | _ => rfl

def cutsOf (name : Identifier) (pieces : List Piece) : List Bool :=
  pieces.flatMap fun piece =>
    List.replicate (droppedText name piece).length true ++
      List.replicate (dropSchema name piece).text.length false

theorem cutsOf_cons (name : Identifier) (piece : Piece) (pieces : List Piece) :
    cutsOf name (piece :: pieces) =
      List.replicate (droppedText name piece).length true ++
        (List.replicate (dropSchema name piece).text.length false ++ cutsOf name pieces) := by
  simp [cutsOf]

theorem kept_cutsOf (name : Identifier) (pieces : List Piece) :
    kept (cutsOf name pieces) (textOf pieces) = textOf (pieces.map (dropSchema name)) := by
  induction pieces with
  | nil => rfl
  | cons piece pieces ih =>
      rw [cutsOf_cons, textOf_cons, text_eq_dropped name piece, List.append_assoc,
        kept_replicate_true, kept_replicate_false, ih, List.map_cons, textOf_cons]

theorem isQualified_elim {name : Identifier} {qualifier : List NamePart}
    (h : isQualified name qualifier) : ∃ schema table others,
      qualifier = schema :: table :: others ∧ schema.value = name.schemaName ∧
        table.value = name.entityName := by
  match qualifier with
  | [] => cases h
  | [_] => cases h
  | schema :: table :: others => exact ⟨schema, table, others, rfl, of_decide_eq_true h⟩

theorem droppedText_cases (name : Identifier) {piece : Piece} {prev next : Option Char}
    (h : piece.Printed prev next) :
    droppedText name piece = [] ∨ isStart prev ∧ droppedText name piece ∈ blocks name := by
  unfold droppedText
  split
  · next schema qualifier last =>
      split
      · next hname =>
          obtain ⟨_, table, others, heq, hschema, -⟩ := isQualified_elim hname
          obtain ⟨rfl, -⟩ := List.cons.inj heq
          refine .inr ⟨h.1, ?_⟩
          unfold blocks
          rw [← hschema]
          cases schema with
          | regular word => exact List.mem_cons_self ..
          | delimited value => exact List.mem_cons_of_mem _ (List.mem_cons_self ..)
      · exact .inl rfl
  · exact .inl rfl

theorem cut_cutsOf (name : Identifier) {prev : Option Char} {pieces : List Piece}
    (h : Printed prev pieces) :
    Cut (fun prev => isStart prev = true) (blocks name) prev [] (textOf pieces)
      (cutsOf name pieces) := by
  induction pieces generalizing prev with
  | nil => exact .nil
  | cons piece pieces ih =>
      obtain ⟨hpiece, -, hpieces⟩ := h
      have hrest := ih hpieces
      rw [text_eq_dropped name piece, lastOf_append] at hrest
      rw [cutsOf_cons, textOf_cons, text_eq_dropped name piece, List.append_assoc]
      obtain hnone | ⟨hstart, hblock⟩ := droppedText_cases name hpiece
      · rw [hnone] at hrest ⊢
        exact hrest.append_kept
      · exact Cut.append_block hstart hblock hrest.append_kept

/-! ## Without the schema the definition is still printed -/

theorem mem_dropQualifier {name : Identifier} {qualifier : List NamePart} {part : NamePart}
    (h : part ∈ dropQualifier name qualifier) : part ∈ qualifier := by
  unfold dropQualifier at h
  split at h
  · exact List.mem_of_mem_tail h
  · exact h

theorem Piece.Printed.dropSchema {name : Identifier} {piece : Piece} {prev next : Option Char}
    (h : piece.Printed prev next) : (dropSchema name piece).Printed prev next := by
  cases piece with
  | name qualifier last =>
      obtain ⟨hstart, hparts, hunreserved, hnext⟩ := h
      have hmem : ∀ part ∈ dropQualifier name qualifier ++ [last], part ∈ qualifier ++ [last] := by
        intro part hpart
        obtain hpart | hpart := List.mem_append.1 hpart
        · exact List.mem_append_left _ (mem_dropQualifier hpart)
        · exact List.mem_append_right _ hpart
      refine ⟨hstart, fun part hpart => hparts part (hmem part hpart), ?_, hnext⟩
      intro hne part hpart
      obtain ⟨first, hfirst⟩ := List.exists_mem_of_ne_nil _ hne
      exact hunreserved (List.ne_nil_of_mem (mem_dropQualifier hfirst)) part (hmem part hpart)
  | _ => exact h

theorem head?_dropSchema {name : Identifier} {pieces : List Piece} {prev : Option Char}
    (h : Printed prev pieces) :
    (textOf (pieces.map (dropSchema name))).head? = (textOf pieces).head? ∨
      StartsName (textOf pieces).head? ∧
        StartsName (textOf (pieces.map (dropSchema name))).head? := by
  cases pieces with
  | nil => exact .inl rfl
  | cons piece pieces =>
      have hpiece : (dropSchema name piece).Printed prev (textOf pieces).head? :=
        h.1.dropSchema
      rw [List.map_cons, textOf_cons, textOf_cons]
      cases piece with
      | name qualifier last =>
          exact .inr ⟨startsName_name h.1.2.1 _, startsName_name hpiece.2.1 _⟩
      | literal value => exact .inl rfl
      | number value exponent =>
          have hne : Piece.text (.number value exponent) ≠ [] := ne_nil_of_printed h.1
          have hsame : dropSchema name (.number value exponent) = .number value exponent := rfl
          left
          rw [hsame, List.head?_append_of_ne_nil _ hne, List.head?_append_of_ne_nil _ hne]
      | space c => exact .inl rfl
      | operator c => exact .inl rfl
      | operators c d => exact .inl rfl

theorem startsString_dropSchema (name : Identifier) (pieces : List Piece) :
    startsString (pieces.map (dropSchema name)) = startsString pieces := by
  induction pieces with
  | nil => rfl
  | cons piece pieces ih =>
      cases piece with
      | space c => exact ih
      | _ => rfl

theorem printed_dropSchema {name : Identifier} {pieces : List Piece} {prev : Option Char}
    (h : Printed prev pieces) : Printed prev (pieces.map (dropSchema name)) := by
  induction pieces generalizing prev with
  | nil => trivial
  | cons piece pieces ih =>
      obtain ⟨hpiece, hstring, hpieces⟩ := h
      have hliteral : (dropSchema name piece).isLiteral = piece.isLiteral := by
        cases piece <;> rfl
      have hne : (dropSchema name piece).text ≠ [] :=
        ne_nil_of_printed hpiece.dropSchema
      have hlast : lastOf prev piece.text = lastOf prev (dropSchema name piece).text := by
        rw [text_eq_dropped name piece, lastOf_append, lastOf_eq_getLast? hne,
          lastOf_eq_getLast? hne]
      refine ⟨hpiece.dropSchema.next (head?_dropSchema hpieces), ?_, ?_⟩
      · rw [hliteral, startsString_dropSchema]
        exact hstring
      · rw [← hlast]
        exact ih hpieces

/-! ## Where the code cuts out what it should -/

theorem cutsFrom_cut (prefixes : List (Text × Text)) (prev : Option Char) (inString : Bool)
    (left : Nat) (text rest : Text) :
    cutsFrom prefixes prev inString text.length left (text ++ rest) =
      List.replicate text.length true ++
        cutsFrom prefixes (lastOf prev text) inString 0 left rest := by
  induction text generalizing prev with
  | nil => rfl
  | cons c text ih => exact congrArg (true :: ·) (ih (some c))

theorem cutsFrom_left (prefixes : List (Text × Text)) (prev : Option Char) (inString : Bool)
    (text rest : Text) :
    cutsFrom prefixes prev inString 0 text.length (text ++ rest) =
      List.replicate text.length false ++
        cutsFrom prefixes (lastOf prev text) inString 0 0 rest := by
  induction text generalizing prev with
  | nil => rfl
  | cons c text ih => exact congrArg (false :: ·) (ih (some c))

/-- A text is left as it is where no prefix is found in it. -/
theorem cutsFrom_still {name : Identifier} {text rest : Text} {prev : Option Char}
    {inString : Bool} {cuts : List Bool} :
    cutsFrom (prefixes name) prev inString 0 0 (text ++ rest) =
        List.replicate text.length false ++ cuts ↔
      Still name rest inString prev text ∧
        cutsFrom (prefixes name) (lastOf prev text) (oddAfter inString text) 0 0 rest = cuts := by
  induction text generalizing prev inString with
  | nil => exact (true_and _).symm.to_iff
  | cons c text ih =>
      have hlast : lastOf prev (c :: text) = lastOf (some c) text := rfl
      have hodd : oddAfter inString (c :: text) = oddAfter (toggled c inString) text := rfl
      rw [Still, ← found_eq_none, and_assoc, hlast, hodd, ← ih, List.cons_append, cutsFrom,
        List.length_cons, List.replicate_succ, List.cons_append]
      split
      · next hfound => simp [hfound]
      · next hfound => simp [hfound]

theorem NamePart.Printed.ne_apostrophe {part : NamePart} (h : part.Printed) :
    ∃ c tail, part.text = c :: tail ∧ c ≠ '\'' := by
  obtain ⟨c, hc, hstarts⟩ := h.starts []
  rw [List.append_nil] at hc
  obtain ⟨tail, htail⟩ := List.head?_eq_some_iff.1 hc
  refine ⟨c, tail, htail, ?_⟩
  rintro rfl
  obtain hstarts | hstarts := hstarts
  · exact absurd hstarts (by decide)
  · exact absurd hstarts (by decide)

/-- The schema of a qualified column is cut out after an even number of apostrophes. -/
theorem cutsFrom_qualified {name : Identifier} {schema table : NamePart}
    {qualifier : List NamePart} (hname : isQualified name (schema :: table :: qualifier))
    (hschema : schema.Printed) {prev : Option Char} (hprev : isStart prev) {odd : Bool}
    {rest : Text} {cuts : List Bool} :
    cutsFrom (prefixes name) prev odd 0 0 (schema.text ++ '.' :: (table.text ++ '.' :: rest)) =
        List.replicate (schema.text ++ ['.']).length true ++
          (List.replicate (table.text ++ ['.']).length false ++ cuts) ↔
      odd = false ∧ cutsFrom (prefixes name) (some '.') false 0 0 rest = cuts := by
  have hfind := find?_prefixes name hname rest
  obtain ⟨c, tail, htext, hne⟩ := hschema.ne_apostrophe
  have htoggled : toggled c odd = odd := if_neg hne
  rw [htext, List.cons_append] at hfind ⊢
  rw [cutsFrom, htoggled, List.cons_append, List.length_cons, List.replicate_succ,
    List.cons_append]
  cases odd with
  | true =>
      have hfound : found (prefixes name) prev true
          (c :: (tail ++ '.' :: (table.text ++ '.' :: rest))) = none :=
        found_eq_none.2 fun hout => by cases hout
      simp [hfound]
  | false =>
      have hfound : found (prefixes name) prev false
          (c :: (tail ++ '.' :: (table.text ++ '.' :: rest))) =
            some (written (c :: tail) table.text) := by
        rw [found, hprev, hfind]
        rfl
      have hcut : (written (c :: tail) table.text).1.length -
          (written (c :: tail) table.text).2.length - 1 = (tail ++ ['.']).length := by
        simp [written]
        omega
      have hsplit : tail ++ '.' :: (table.text ++ '.' :: rest) =
          (tail ++ ['.']) ++ ((table.text ++ ['.']) ++ rest) := by simp
      have hlast : ∀ (prev : Option Char) (text : Text), lastOf prev (text ++ ['.']) = some '.' :=
        fun prev text => lastOf_append prev text ['.']
      rw [hfound]
      dsimp only
      rw [hcut, hsplit, cutsFrom_cut]
      have hleft := cutsFrom_left (prefixes name) (some '.') false (table.text ++ ['.']) rest
      rw [hlast (some '.')] at hleft
      rw [show (written (c :: tail) table.text).2 = table.text ++ ['.'] from rfl, hlast, hleft]
      simp

theorem afterTable_eq_some {name : Identifier} {piece column : Piece}
    (h : afterTable name piece = some column) : ∃ schema table others last,
      piece = .name (schema :: table :: others) last ∧
        isQualified name (schema :: table :: others) ∧ column = .name others last := by
  cases piece with
  | name qualifier last =>
      rw [afterTable] at h
      split at h
      · next hname =>
          obtain ⟨schema, table, others, rfl, -⟩ := isQualified_elim hname
          cases h
          exact ⟨schema, table, others, last, rfl, hname, rfl⟩
      · cases h
  | _ => cases h

theorem not_dropped_of_afterTable {name : Identifier} {piece : Piece}
    (h : afterTable name piece = none) :
    droppedText name piece = [] ∧ dropSchema name piece = piece := by
  cases piece with
  | name qualifier last =>
      rw [afterTable] at h
      split at h
      · cases h
      · next hname =>
          refine ⟨?_, by rw [dropSchema, dropQualifier, if_neg hname]⟩
          cases qualifier with
          | nil => rfl
          | cons schema qualifier => exact if_neg hname
  | _ => exact ⟨rfl, rfl⟩

/-- The code cuts out what it should exactly where the prefixes are told apart. -/
theorem cutsFrom_eq_cutsOf {name : Identifier} {pieces : List Piece} {odd : Bool}
    {prev : Option Char} (h : Printed prev pieces) :
    cutsFrom (prefixes name) prev odd 0 0 (textOf pieces) = cutsOf name pieces ↔
      Told name odd prev pieces := by
  induction pieces generalizing odd prev with
  | nil => exact iff_of_true rfl trivial
  | cons piece pieces ih =>
      obtain ⟨hpiece, -, hpieces⟩ := h
      rw [cutsOf_cons, textOf_cons]
      unfold Told
      split
      · next column hcolumn =>
          obtain ⟨schema, table, others, last, rfl, hname, rfl⟩ := afterTable_eq_some hcolumn
          have htext : Piece.text (.name (schema :: table :: others) last) =
              (schema.text ++ '.' :: table.text ++ ['.']) ++ (Piece.name others last).text := by
            simp [Piece.text, qualifierText_cons]
          have hkept : (dropSchema name (.name (schema :: table :: others) last)).text =
              (table.text ++ ['.']) ++ (Piece.name others last).text := by
            simp [dropSchema, dropQualifier, hname, Piece.text, qualifierText_cons]
          have hdropped : droppedText name (.name (schema :: table :: others) last) =
              schema.text ++ ['.'] := if_pos hname
          have hlast : lastOf prev (schema.text ++ '.' :: table.text ++ ['.']) = some '.' :=
            lastOf_append prev _ ['.']
          rw [htext, lastOf_append, hlast] at hpieces
          have hsplit : schema.text ++ '.' :: table.text ++ ['.'] ++
              (Piece.name others last).text ++ textOf pieces = schema.text ++ '.' ::
                (table.text ++ '.' :: ((Piece.name others last).text ++ textOf pieces)) := by
            simp
          have hcuts : List.replicate (table.text ++ ['.'] ++ (Piece.name others last).text).length
              false = List.replicate (table.text ++ ['.']).length false ++
                List.replicate (Piece.name others last).text.length false := by
            rw [List.length_append, List.replicate_add]
          have hschema : schema.Printed := hpiece.2.1 schema (by simp)
          rw [hdropped, hkept, htext, hsplit, hcuts, List.append_assoc,
            cutsFrom_qualified hname hschema hpiece.1, cutsFrom_still, ih hpieces]
      · next hother =>
          obtain ⟨hdropped, hkept⟩ := not_dropped_of_afterTable hother
          rw [hdropped, hkept, ← ih hpieces, ← cutsFrom_still]
          rfl

/-- The output is the definition without the schema exactly where the prefixes are told apart. -/
theorem outputDefinition_eq_iff {name : Identifier} {pieces : List Piece}
    (h : Printed none pieces) :
    outputDefinition true (textOf pieces) name = textOf (pieces.map (dropSchema name)) ↔
      Told name false none pieces := by
  have hlength : 0 + 0 ≤ (textOf pieces).length := Nat.zero_le _
  have hrewrite : kept (cutsFrom (prefixes name) none false 0 0 (textOf pieces)) (textOf pieces) =
      rewriteFrom (prefixes name) none false 0 (textOf pieces) := kept_cutsFrom name hlength
  rw [← cutsFrom_eq_cutsOf h, ← kept_cutsOf, outputDefinition, if_pos rfl, ← hrewrite]
  constructor
  · intro hkept
    exact Cut.eq_of_kept_eq (separate_blocks name) (cut_cutsFrom name hlength)
      (cut_cutsOf name h) hkept
  · intro hcuts
    rw [hcuts]

end Vsql.Dump
