import Vsql.Values.StoreAssignment

/-!
# Search conditions

The rows of a table and the condition of a WHERE clause, down to the predicates
that a key can be used for.  The other predicates and value expressions are
functions of the row.  A condition keeps the rows that it is true for.
-/

namespace Vsql

open Foundation

/-! ## Tables -/

structure Table where
  id : Nat
  columns : List DataType
  primaryKey : List (Fin columns.length) := []
  /-- Columns in the PRIMARY KEY are implicitly NOT NULL. -/
  primaryKey_notNull : ∀ j ∈ primaryKey, (columns.get j).notNull = true := by simp

abbrev Table.Position (t : Table) : Type := Fin t.columns.length

def Table.typ (t : Table) (j : t.Position) : DataType := t.columns.get j

/-- A row has a value for each column, of the type of the column. -/
structure Row (t : Table) where
  id : Bytes
  data : t.Position → Value
  stored : ∀ j, (data j).isNull = false → (data j).StoredAs (t.typ j)
  notNull : ∀ j, (t.typ j).notNull = true → (data j).isNull = false

/-! ## Conditions -/

inductive Operand (t : Table) where
  | column (position : t.Position)
  /-- An expression that does not refer to a column. -/
  | value (typ : SqlType) (run : Except Failure Value)
  | other (run : Row t → Except Failure Value)

inductive Predicate (t : Table) where
  | comparison (left : Operand t) (op : ComparisonOperator) (right : Operand t)
  | between (not symmetric : Bool) (expr left right : Operand t)
  | null (expr : Operand t) (not : Bool)
  | other (run : Row t → Except Failure Truth)

/-- A predicate, or an expression in parentheses or without one. -/
inductive BooleanPrimary (t : Table) where
  | predicate (p : Predicate t)
  | predicand (run : Row t → Except Failure Truth)

structure BooleanTest (t : Table) where
  expr : BooleanPrimary t
  not : Bool := false
  value : Option Truth := none
  inverse : Bool := false

inductive BooleanTerm (t : Table) where
  | factor (f : BooleanTest t)
  | and (term : BooleanTerm t) (f : BooleanTest t)

/-- `BooleanValueExpression` in the source: `expr` is what is before an OR. -/
structure SearchCondition (t : Table) where
  expr : Option (Row t → Except Failure Truth) := none
  term : BooleanTerm t

/-! ## Evaluation -/

variable {t : Table} (sessionTimeZone : TimeZone)

def Operand.run : Operand t → Row t → Except Failure Value
  | .column j, row => .ok (row.data j)
  | .value _ run, _ => run
  | .other run, row => run row

def Predicate.truth (row : Row t) : Predicate t → Except Failure Truth
  | .comparison left op right => do
      let x ← left.run row
      let y ← right.run row
      let cmp ← Value.compare sessionTimeZone x y
      pure (op.truth cmp)
  | .between not symmetric expr left right => do
      let x ← expr.run row
      let y ← left.run row
      let z ← right.run row
      let lower ← Value.compare sessionTimeZone x y
      let upper ← Value.compare sessionTimeZone x z
      let result := betweenAsymmetric lower upper
      let result :=
        if symmetric then truthOr result (betweenAsymmetric upper lower) else result
      pure (if not then truthNot result else result)
  | .null expr not => do
      let x ← expr.run row
      pure (if x.isNull != not then .isTrue else .isFalse)
  | .other run => run row

def BooleanPrimary.truth (row : Row t) : BooleanPrimary t → Except Failure Truth
  | .predicate p => p.truth sessionTimeZone row
  | .predicand run => run row

def BooleanTest.unaryNot (test : BooleanTest t) (truth : Truth) : Truth :=
  if test.inverse then truthNot truth else truth

def BooleanTest.truth (row : Row t) (test : BooleanTest t) : Except Failure Truth := do
  let value ← test.expr.truth sessionTimeZone row
  match test.value with
  | some v =>
      let result : Truth := if (value == v) != test.not then .isTrue else .isFalse
      pure (test.unaryNot result)
  | none => pure (test.unaryNot value)

def BooleanTerm.truth (row : Row t) : BooleanTerm t → Except Failure Truth
  | .factor f => f.truth sessionTimeZone row
  | .and term f => do
      let a ← term.truth row
      let b ← f.truth sessionTimeZone row
      pure (truthAnd a b)

def SearchCondition.truth (row : Row t) (condition : SearchCondition t) :
    Except Failure Truth :=
  match condition.expr with
  | some run => do
      let a ← run row
      let b ← condition.term.truth sessionTimeZone row
      pure (truthOr a b)
  | none => condition.term.truth sessionTimeZone row

/-- `WhereOperation.execute`: the rows that the condition is true for. -/
def SearchCondition.execute (condition : SearchCondition t) :
    List (Row t) → Except Failure (List (Row t))
  | [] => .ok []
  | row :: rows => do
      let truth ← condition.truth sessionTimeZone row
      let rest ← execute condition rows
      pure (if truth = .isTrue then row :: rest else rest)

/-! ## The parts of an AND -/

variable {sessionTimeZone}

def BooleanTerm.factors : BooleanTerm t → List (BooleanTest t)
  | .factor f => [f]
  | .and term f => term.factors ++ [f]

/-- Any row can be true for an OR. -/
def SearchCondition.factors (condition : SearchCondition t) : List (BooleanTest t) :=
  match condition.expr with
  | some _ => []
  | none => condition.term.factors

theorem BooleanTerm.truth_of_mem_factors {row : Row t} {term : BooleanTerm t}
    (h : term.truth sessionTimeZone row = .ok .isTrue) :
    ∀ f ∈ term.factors, f.truth sessionTimeZone row = .ok .isTrue := by
  induction term with
  | factor f =>
      intro g hg
      rw [BooleanTerm.factors, List.mem_singleton] at hg
      rw [hg]
      exact h
  | and term f ih =>
      obtain ⟨a, ha, h⟩ := ok_of_bind h
      obtain ⟨b, hb, h⟩ := ok_of_bind h
      have hab := truthAnd_eq_isTrue.mp (Except.ok.inj h)
      intro g hg
      rw [BooleanTerm.factors, List.mem_append, List.mem_singleton] at hg
      obtain hg | rfl := hg
      · exact ih (by rw [ha, hab.1]) g hg
      · rw [hb, hab.2]

theorem SearchCondition.truth_of_mem_factors {row : Row t}
    {condition : SearchCondition t}
    (h : condition.truth sessionTimeZone row = .ok .isTrue) :
    ∀ f ∈ condition.factors, f.truth sessionTimeZone row = .ok .isTrue := by
  unfold SearchCondition.truth at h
  unfold SearchCondition.factors
  split at h
  · simp
  · exact BooleanTerm.truth_of_mem_factors h

/-! ## The rows that a condition keeps -/

theorem SearchCondition.execute_eq_ok {condition : SearchCondition t}
    {rows kept : List (Row t)} :
    condition.execute sessionTimeZone rows = .ok kept ↔
      (∀ row ∈ rows, ∃ truth, condition.truth sessionTimeZone row = .ok truth) ∧
        kept = rows.filter fun row =>
          decide (condition.truth sessionTimeZone row = .ok .isTrue) := by
  induction rows generalizing kept with
  | nil => simp [SearchCondition.execute, eq_comm]
  | cons row rows ih =>
      rw [SearchCondition.execute]
      cases htruth : condition.truth sessionTimeZone row with
      | error e => simp [bind, Except.bind, htruth]
      | ok truth =>
          cases hrest : condition.execute sessionTimeZone rows with
          | error e =>
              have hnot : ¬∀ row ∈ rows, ∃ truth,
                  condition.truth sessionTimeZone row = .ok truth := fun hall => by
                rw [ih.mpr ⟨hall, rfl⟩] at hrest
                cases hrest
              simp only [bind, Except.bind, reduceCtorEq, List.forall_mem_cons, false_iff]
              exact fun h => hnot h.1.2
          | ok rest =>
              obtain ⟨hall, rfl⟩ := ih.mp hrest
              simp only [bind, Except.bind, pure, Except.pure, Except.ok.injEq,
                List.forall_mem_cons, htruth, List.filter_cons, decide_eq_true_eq]
              refine ⟨fun h => ⟨⟨⟨truth, rfl⟩, hall⟩, h.symm⟩, fun h => h.2.symm⟩

end Vsql
