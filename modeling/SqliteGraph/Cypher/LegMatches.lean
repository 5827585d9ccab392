import SqliteGraph.Cypher.Reads

/-! The edges that one leg of a pattern finds in the tables. -/
namespace SqliteGraph.Cypher
open Lib Sqlite

/-- The ends of an edge as a leg in a direction names them; an undirected leg goes outwards. -/
def edgeEnds (direction : EdgeDirection) (e : EdgeRow) : Int64 × Int64 :=
  match direction with
  | .incoming => (e.toId, e.fromId)
  | _ => (e.fromId, e.toId)

section Legs
variable (db : Database)

/-- What the tables of labels and properties say of an entity and a pattern. -/
def tableFits (pat : NodePattern) (id : Int64) : Bool :=
  hasLabel db pat.label id && entityHasProperties db id (pat.props.foldl addProperty [])

def legEdges (direction : EdgeDirection) (relType : String) (fromPat toPat : NodePattern) :
    List EdgeRow :=
  db.edges.filter fun e => decide (e.edgeType = relType) &&
    (tableFits db fromPat (edgeEnds direction e).1 && tableFits db toPat (edgeEnds direction e).2)

end Legs

def tripleOf (e : EdgeRow) : TripleMatch := ⟨e.fromId, e.toId, e.id⟩

section Matches
variable {db : Database} {direction : EdgeDirection} {relType : String}
  {fromPat toPat startPat endPat : NodePattern}

@[simp] theorem tripleEnds_tripleOf (e : EdgeRow) :
    tripleEnds direction (tripleOf e) = edgeEnds direction e := by
  cases direction <;> rfl

theorem matchesPropertyFilters_eq (m : TripleMatch) :
    matchesPropertyFilters db (triplePattern relType startPat endPat) m =
      (entityHasProperties db m.startId (startPat.props.foldl addProperty []) &&
        entityHasProperties db m.endId (endPat.props.foldl addProperty [])) := by
  have hempty : ∀ (id : Int64) (props : List (String × String)),
      (props.isEmpty || entityHasProperties db id props) = entityHasProperties db id props := by
    intro id props
    cases props with
    | nil => rfl
    | cons prop props => simp
  rw [matchesPropertyFilters, hempty, hempty]
  rfl

/-- The query by labels is the one without where there are none. -/
theorem complexEdgeQuery_eq (startPat endPat : NodePattern)
    (h : startPat.label.isNone && endPat.label.isNone) :
    executeSimpleEdgeQuery db (triplePattern relType startPat endPat) =
      executeComplexEdgeQuery db (triplePattern relType startPat endPat) := by
  simp only [Bool.and_eq_true, Option.isNone_iff_eq_none] at h
  simp [executeSimpleEdgeQuery, executeComplexEdgeQuery, triplePattern, hasLabel, h]

theorem matchTriples_run (db : Database) (hblank : isBlank relType = false)
    (startPat endPat : NodePattern) :
    ∃ l, matchTriples db (triplePattern relType startPat endPat) = .ok l ∧
      l.Perm ((db.edges.filter fun e => decide (e.edgeType = relType) &&
        (tableFits db startPat e.fromId && tableFits db endPat e.toId)).map tripleOf) := by
  have hvalid : (triplePattern relType startPat endPat).validate = .ok () := by
    rw [PatternTriple.validate]
    exact if_neg (by rw [triplePattern, PatternTriple.new, hblank]; simp)
  have hfound : (if (triplePattern relType startPat endPat).startLabel.isNone &&
        (triplePattern relType startPat endPat).endLabel.isNone
      then executeSimpleEdgeQuery db (triplePattern relType startPat endPat)
      else executeComplexEdgeQuery db (triplePattern relType startPat endPat)) =
      executeComplexEdgeQuery db (triplePattern relType startPat endPat) := by
    split
    · rename_i hnone
      exact complexEdgeQuery_eq startPat endPat hnone
    · rfl
  have hrun : matchTriples db (triplePattern relType startPat endPat) =
      .ok (((executeComplexEdgeQuery db (triplePattern relType startPat endPat)).filter
        (matchesPropertyFilters db (triplePattern relType startPat endPat))).mergeSort tripleOrder) := by
    conv_rhs => rw [← hfound]
    rw [matchTriples, hvalid]
    rfl
  refine ⟨_, hrun, (List.mergeSort_perm _ _).trans ?_⟩
  refine ((List.mergeSort_perm _ _).filter _).trans ?_
  rw [List.filter_map, List.filter_filter]
  refine .of_eq (congrArg _ (List.filter_congr fun e _ => ?_))
  rw [Function.comp_apply, matchesPropertyFilters_eq, Bool.eq_iff_iff]
  simp only [Bool.and_eq_true, decide_eq_true_eq, tableFits]
  simp only [triplePattern, PatternTriple.new, PatternTriple.triple, PatternTriple.startOf,
    PatternTriple.endOf]
  tauto

theorem matchLeg_run (db : Database) (direction : EdgeDirection) (fromPat toPat : NodePattern)
    (hblank : isBlank relType = false) : ∃ l,
    matchLeg db direction relType fromPat toPat = .ok l ∧
      l.Perm ((legEdges db direction relType fromPat toPat).map tripleOf) := by
  cases direction with
  | incoming =>
    obtain ⟨l, hl, hperm⟩ := matchTriples_run db hblank toPat fromPat
    refine ⟨l, congrArg orString hl, hperm.trans (.of_eq (congrArg _ ?_))⟩
    refine List.filter_congr fun e _ => ?_
    rw [Bool.and_comm (tableFits db toPat _)]
    rfl
  | outgoing =>
    obtain ⟨l, hl, hperm⟩ := matchTriples_run db hblank fromPat toPat
    exact ⟨l, congrArg orString hl, hperm⟩
  | both =>
    obtain ⟨l, hl, hperm⟩ := matchTriples_run db hblank fromPat toPat
    exact ⟨l, congrArg orString hl, hperm⟩

theorem matchLeg_blank (hblank : isBlank relType = true) :
    matchLeg db direction relType fromPat toPat = .error "invalid input: edge_type is required" := by
  have herror : ∀ startPat endPat : NodePattern,
      matchTriples db (triplePattern relType startPat endPat) =
        .error (.invalidInput "edge_type is required") := by
    intro startPat endPat
    rw [matchTriples, PatternTriple.validate, if_pos (by exact hblank)]
    rfl
  cases direction with
  | incoming => exact congrArg orString (herror toPat fromPat)
  | outgoing => exact congrArg orString (herror fromPat toPat)
  | both => exact congrArg orString (herror fromPat toPat)

end Matches

end SqliteGraph.Cypher
