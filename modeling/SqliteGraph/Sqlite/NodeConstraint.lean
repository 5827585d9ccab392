import SqliteGraph.Sqlite.Database

/-! Constraints on entities, evaluated on a row and as a query. -/
namespace SqliteGraph.Sqlite

structure NodeConstraint where
  kind : Option String := none
  namePrefix : Option String := none

/-- `name LIKE pattern`: letters in either case, `%` for any text, `_` for any character. -/
def like : List Char → List Char → Bool
  | [], name => name.isEmpty
  | p :: pattern, name =>
    if p = '%' then name.tails.any (like pattern)
    else match name with
      | [] => false
      | c :: name => (p = '_' || c.toLower = p.toLower) && like pattern name

namespace NodeConstraint
variable (constraint : NodeConstraint)

def «matches» (entity : GraphEntity) : Bool :=
  if constraint.kind.any (entity.kind ≠ ·) then false
  else if constraint.namePrefix.any fun p => !p.toList.isPrefixOf entity.name.toList then false
  else true

end NodeConstraint

def likePrefix (p : String) (entity : GraphEntity) : Bool :=
  like (p.toList ++ ['%']) entity.name.toList

def queryKind (db : Database) (kind : String) : List Int64 :=
  (db.entities.filter fun e => e.kind = kind).map (·.id)

def queryPrefix (db : Database) (p : String) : List Int64 :=
  (db.entities.filter (likePrefix p)).map (·.id)

def queryKindAndPrefix (db : Database) (kind p : String) : List Int64 :=
  (db.entities.filter fun e => e.kind = kind && likePrefix p e).map (·.id)

def entityIdsWithConstraint (db : Database) (constraint : NodeConstraint) : List Int64 :=
  match constraint.kind, constraint.namePrefix with
  | none, none => db.allEntityIds
  | some kind, some p => queryKindAndPrefix db kind p
  | some kind, none => queryKind db kind
  | none, some p => queryPrefix db p

/-- The query selects the entities that the predicate accepts. -/
def SelectsMatches (db : Database) (constraint : NodeConstraint) : Prop :=
  ∀ id, id ∈ entityIdsWithConstraint db constraint ↔
    ∃ entity ∈ db.entities, entity.id = id ∧ constraint.matches entity = true

/-- A character that the query compares as it is. -/
def Literal (c : Char) : Prop := c.isAlpha = false ∧ c ≠ '%' ∧ c ≠ '_'

section Letters
variable {c d : Char}

theorem toLower_eq_self (h : c.isAlpha = false) : c.toLower = c := by
  apply Char.toLower_eq_of_not_isUpper
  rw [Char.isAlpha, Bool.or_eq_false_iff] at h
  simp [h.1]

theorem Literal.eq_iff (h : Literal c) : d.toLower = c.toLower ↔ d = c := by
  constructor
  · intro hd
    have hc := toLower_eq_self h.1
    have hd' : d.isAlpha = false := by
      rw [← Char.isAlpha_toLower_eq_isAlpha, hd, hc]
      exact h.1
    rw [← toLower_eq_self hd', hd, hc]
  · rintro rfl
    rfl

/-- The letter in the other case; a letter for a wildcard. -/
def otherCase (c : Char) : Char :=
  if c = '%' ∨ c = '_' then 'a' else if c.isUpper then c.toLower else c.toUpper

theorem otherCase_accepted (c : Char) :
    c = '%' ∨ c = '_' ∨ (otherCase c).toLower = c.toLower := by
  by_cases hwild : c = '%' ∨ c = '_'
  · exact hwild.imp_right .inl
  · refine .inr (.inr ?_)
    rw [otherCase, if_neg hwild]
    split
    · exact Char.toLower_toLower_eq_toLower c
    · exact Char.toLower_toUpper_eq_toLower c

theorem otherCase_ne (h : ¬ Literal c) : otherCase c ≠ c := by
  intro heq
  rw [otherCase] at heq
  by_cases hwild : c = '%' ∨ c = '_'
  · rw [if_pos hwild] at heq
    rcases hwild with rfl | rfl <;> cases heq
  have halpha : c.isAlpha = true := by
    by_contra hc
    exact h ⟨by simpa using hc, fun hany => hwild (.inl hany), fun hone => hwild (.inr hone)⟩
  rw [if_neg hwild] at heq
  split at heq
  · rename_i hupper
    rw [← heq, Char.isUpper_toLower_eq_false] at hupper
    cases hupper
  · rename_i hupper
    have hlower : c.isLower = true := by
      rw [Char.isAlpha, Bool.or_eq_true] at halpha
      exact halpha.resolve_left hupper
    rw [← heq, Char.isLower_toUpper_eq_false] at hlower
    cases hlower

end Letters

section Patterns
variable {p name pattern : List Char}

theorem like_cons {a c : Char} (ha : a ≠ '%') :
    like (a :: pattern) (c :: name) = ((a = '_' || c.toLower = a.toLower) && like pattern name) := by
  rw [like, if_neg ha]

theorem like_any : like ('%' :: pattern) name = name.tails.any (like pattern) := by
  cases name <;> rw [like, if_pos rfl]

theorem like_all : like ['%'] name = true := by
  rw [like_any, List.any_eq_true]
  exact ⟨[], by simp, rfl⟩

/-- A prefix of literal characters is compared as it is. -/
theorem like_literals (h : ∀ c ∈ p, Literal c) :
    like (p ++ ['%']) name = p.isPrefixOf name := by
  induction p generalizing name with
  | nil => simpa using like_all
  | cons a p ih =>
    obtain ⟨ha, hp⟩ := List.forall_mem_cons.mp h
    rcases name with _ | ⟨c, name⟩
    · rw [List.cons_append, like, if_neg ha.2.1, List.isPrefixOf_cons_nil]
    · rw [List.cons_append, like_cons ha.2.1, ih hp, List.isPrefixOf_cons_cons]
      simp [ha.2.2, ha.eq_iff, eq_comm, beq_eq_decide]

/-- The text with each letter in the other case is accepted as well. -/
theorem like_otherCase (p : List Char) : like (p ++ ['%']) (p.map otherCase) = true := by
  induction p with
  | nil => exact like_all
  | cons a p ih =>
    rw [List.cons_append, List.map_cons]
    by_cases ha : a = '%'
    · rw [ha, like_any, List.any_eq_true]
      exact ⟨p.map otherCase, by simp [List.tails], ih⟩
    · rw [like_cons ha, ih, Bool.and_true]
      rcases otherCase_accepted a with hany | hone | hletter
      · exact absurd hany ha
      · simp [hone]
      · simp [hletter]

theorem isPrefixOf_map (hne : ∃ c ∈ p, otherCase c ≠ c) : p.isPrefixOf (p.map otherCase) = false := by
  rw [Bool.eq_false_iff]
  intro hpre
  obtain ⟨c, hc, hne⟩ := hne
  have heq : p = p.map otherCase :=
    (List.isPrefixOf_iff_prefix.mp hpre).eq_of_length (by simp)
  have hsame : p.map otherCase = p.map id := by rw [← heq, List.map_id]
  exact hne (List.map_inj_left.mp hsame c hc)

end Patterns

section Agreement
variable {constraint : NodeConstraint} {db : Database}

theorem matches_eq (constraint : NodeConstraint) (entity : GraphEntity) :
    constraint.matches entity = (constraint.kind.all (entity.kind = ·) &&
      constraint.namePrefix.all fun p => p.toList.isPrefixOf entity.name.toList) := by
  obtain ⟨kind, p⟩ := constraint
  rw [NodeConstraint.matches]
  cases kind <;> cases p <;> simp

/-- The three queries and the list of all ids are one selection. -/
theorem entityIdsWithConstraint_eq (db : Database) (constraint : NodeConstraint) :
    entityIdsWithConstraint db constraint =
      (db.entities.filter fun e => constraint.kind.all (e.kind = ·) &&
        constraint.namePrefix.all (likePrefix · e)).map (·.id) := by
  obtain ⟨kind, p⟩ := constraint
  cases kind <;> cases p <;>
    simp [entityIdsWithConstraint, queryKind, queryPrefix, queryKindAndPrefix, Database.allEntityIds]

/-- The query and the predicate agree on every table just when the prefix has no letter and no
wildcard. -/
theorem preFilter_agrees_iff (constraint : NodeConstraint) :
    (∀ db, SelectsMatches db constraint) ↔
      ∀ p ∈ constraint.namePrefix, ∀ c ∈ p.toList, Literal c := by
  constructor
  · intro h p hp c hc
    by_contra hliteral
    let entity : GraphEntity :=
      ⟨1, constraint.kind.getD "", String.ofList (p.toList.map otherCase), none, .null⟩
    have hselected : (1 : Int64) ∈ entityIdsWithConstraint { Database.empty with entities := [entity] }
        constraint := by
      have hlike := like_otherCase p.toList
      rw [entityIdsWithConstraint_eq, Option.mem_def.mp hp]
      cases hkind : constraint.kind <;> simp [entity, likePrefix, hkind, hlike]
    obtain ⟨e, he, -, hmatches⟩ := (h _ 1).mp hselected
    rw [List.mem_singleton.mp he, matches_eq, Option.mem_def.mp hp] at hmatches
    have hnot := isPrefixOf_map ⟨c, hc, otherCase_ne hliteral⟩
    simp [entity, hnot] at hmatches
  · intro h db id
    have hsame : ∀ e : GraphEntity, constraint.namePrefix.all (likePrefix · e) =
        constraint.namePrefix.all fun p => p.toList.isPrefixOf e.name.toList := by
      intro e
      cases hp : constraint.namePrefix with
      | none => rfl
      | some p => exact like_literals (h p hp)
    simp only [entityIdsWithConstraint_eq, List.mem_map, List.mem_filter, matches_eq, hsame]
    constructor
    · rintro ⟨e, ⟨he, haccepted⟩, hid⟩
      exact ⟨e, he, hid, haccepted⟩
    · rintro ⟨e, he, hid, haccepted⟩
      exact ⟨e, ⟨he, haccepted⟩, hid⟩

/-- A name in the other case is selected, and not accepted. -/
theorem not_preFilter_agrees : ¬ SelectsMatches
    { Database.empty with entities := [⟨1, "Fn", "Alpha_fn", none, .null⟩] }
    { namePrefix := some "alpha" } := by
  intro h
  obtain ⟨e, he, -, hmatches⟩ := (h 1).mp (by decide +kernel)
  rw [List.mem_singleton.mp he] at hmatches
  revert hmatches
  decide +kernel

end Agreement

end SqliteGraph.Sqlite
