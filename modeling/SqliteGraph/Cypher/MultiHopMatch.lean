import SqliteGraph.Cypher.EdgeMatch
import SqliteGraph.Sqlite.MultiHopSpec

/-! Chains of legs: the ends that are returned against the sequences of nodes that the legs describe. -/
namespace SqliteGraph.Cypher
open Lib Sqlite

/-- An edge of the leg's type joins the nodes in an allowed order, and each fits its pattern. -/
structure LegFits (db : Database) (leg : EdgeLeg) (u v : GraphEntity) : Prop where
  fromNode : u ∈ db.entities
  toNode : v ∈ db.entities
  fromMatches : nodePatternMatches leg.fromNode u
  toMatches : nodePatternMatches leg.toNode v
  joined : ∃ e ∈ db.edges, e.edgeType = leg.relType ∧ (u.id, v.id) ∈ allowedEnds leg.direction e

/-- The nodes of a chain after its start, one for each leg. -/
def ChainFits (db : Database) : List EdgeLeg → GraphEntity → List GraphEntity → Prop
  | [], _, [] => True
  | leg :: legs, u, v :: nodes => LegFits db leg u v ∧ ChainFits db legs v nodes
  | _, _, _ => False

/-- Which nodes stand for which variables. -/
def chainNodes : List EdgeLeg → GraphEntity → List GraphEntity → List (String × GraphEntity)
  | leg :: legs, u, v :: nodes =>
    (leg.fromNode.var, u) :: (leg.toNode.var, v) :: chainNodes legs v nodes
  | _, _, _ => []

/-- A variable has one node. -/
def SingleNodes (bound : List (String × GraphEntity)) : Prop :=
  ∀ x ∈ bound, ∀ y ∈ bound, x.1 = y.1 → x.2.id = y.2.id

section Chains
variable (ext : Externals) (db : Database) (query : CypherQuery)

/-- A sequence of nodes that the legs and WHERE describe. -/
structure ChainDescribed (legs : List EdgeLeg) (u : GraphEntity) (nodes : List GraphEntity) : Prop where
  fits : ChainFits db legs u nodes
  single : SingleNodes (chainNodes legs u nodes)
  holds : groupsMatch ext query.whereGroups fun var => (chainNodes legs u nodes).lookup var

/-- The nodes at the ends of a chain that the executor takes. -/
structure ChainTaken (legs : List EdgeLeg) (startPat endPat : NodePattern) (u v : GraphEntity) :
    Prop where
  startNode : u ∈ db.entities
  endNode : v ∈ db.entities
  startMatches : nodePatternMatches startPat u
  endMatches : nodePatternMatches endPat v
  holds : whereClausesMatch ext query (startPat, u) (some (endPat, v))
  joined : EndsAt db.tables.specs (legs.map legStep) u.id v.id

def lastLeg (first : EdgeLeg) (rest : List EdgeLeg) : EdgeLeg := rest.getLast?.getD first

/-- The rows are the ends of the sequences that are described. -/
def MultiHopExact (first : EdgeLeg) (rest : List EdgeLeg) : Prop :=
  ∀ u v, (u, v) ∈ multiHopRows ext db query (first :: rest) first.fromNode
      (lastLeg first rest).toNode ↔
    ∃ nodes, nodes.getLast? = some v ∧ ChainDescribed ext db query (first :: rest) u nodes

end Chains

section Rows
variable {ext : Externals} {db : Database} {query : CypherQuery} {legs : List EdgeLeg}
  {startPat endPat : NodePattern} {u v : GraphEntity} {nodes : List GraphEntity}

theorem LegFits.takes {leg : EdgeLeg} (h : LegFits db leg u v) (hdirected : leg.direction ≠ .both) :
    ∃ e ∈ db.tables.specs, (legStep leg).Takes e u.id v.id := by
  obtain ⟨e, he, htype, hends⟩ := h.joined
  refine ⟨e.toEdgeSpec, ?_, ?_, ?_⟩
  · simp only [Tables.specs, Database.tables, List.map_map]
    exact List.mem_map_of_mem he
  · cases hdir : leg.direction with
    | both => exact absurd hdir hdirected
    | outgoing =>
      rw [hdir, allowedEnds, List.mem_singleton, Prod.mk.injEq] at hends
      simp [legStep, hdir, edgeDirectionToBackend, EdgeSpec.Joins, hends]
    | incoming =>
      rw [hdir, allowedEnds, List.mem_singleton, Prod.mk.injEq] at hends
      simp [legStep, hdir, edgeDirectionToBackend, EdgeSpec.Joins, hends]
  · rintro edgeType ⟨⟩
    exact htype

theorem mem_multiHopRows (h : db.RowIds) : (u, v) ∈ multiHopRows ext db query legs startPat endPat ↔
    ChainTaken ext db query legs startPat endPat u v := by
  rw [multiHopRows, filter_candidates_matches h, List.mem_flatMap]
  simp only [List.mem_filter, mem_endRows h, mem_chainQuery]
  constructor
  · rintro ⟨w, ⟨hu, hstart⟩, rfl, hv, hjoined, hend, hwhere⟩
    exact ⟨hu, hv, hstart, hend, hwhere, hjoined⟩
  · rintro ⟨hu, hv, hstart, hend, hwhere, hjoined⟩
    exact ⟨u, ⟨hu, hstart⟩, rfl, hv, hjoined, hend, hwhere⟩

/-- The last node of a chain has the last pattern, and stands for its variable. -/
theorem ChainFits.last {leg : EdgeLeg} (h : ChainFits db legs u nodes)
    (hleg : legs.getLast? = some leg) (hv : nodes.getLast? = some v) :
    v ∈ db.entities ∧ nodePatternMatches leg.toNode v ∧
      (leg.toNode.var, v) ∈ chainNodes legs u nodes := by
  induction legs generalizing u nodes with
  | nil => cases hleg
  | cons first legs ih =>
    rcases nodes with _ | ⟨w, nodes⟩
    · cases hv
    obtain ⟨hfirst, hrest⟩ := h
    cases legs with
    | nil =>
      rcases nodes with _ | ⟨x, nodes⟩
      · cases hleg
        cases hv
        exact ⟨hfirst.toNode, hfirst.toMatches, .tail _ (.head _)⟩
      · exact absurd hrest id
    | cons next legs =>
      rcases nodes with _ | ⟨x, nodes⟩
      · exact absurd hrest id
      · rw [List.getLast?_cons_cons] at hleg hv
        obtain ⟨hmem, hmatches, hbound⟩ := ih hrest hleg hv
        exact ⟨hmem, hmatches, .tail _ (.tail _ hbound)⟩

theorem ChainFits.mem_entities {x : String × GraphEntity} (h : ChainFits db legs u nodes)
    (hx : x ∈ chainNodes legs u nodes) : x.2 ∈ db.entities := by
  induction legs generalizing u nodes with
  | nil => cases nodes <;> cases hx
  | cons leg legs ih =>
    rcases nodes with _ | ⟨w, nodes⟩
    · cases hx
    obtain ⟨hleg, hrest⟩ := h
    rw [chainNodes, List.mem_cons, List.mem_cons] at hx
    rcases hx with rfl | rfl | hx
    · exact hleg.fromNode
    · exact hleg.toNode
    · exact ih hrest hx

/-- Along directed legs the executor goes the way that the legs point. -/
theorem ChainFits.endsAt (h : ChainFits db legs u nodes)
    (hdirected : ∀ leg ∈ legs, leg.direction ≠ .both) :
    EndsAt db.tables.specs (legs.map legStep) u.id (nodes.getLast?.getD u).id := by
  induction legs generalizing u nodes with
  | nil =>
    rcases nodes with _ | ⟨w, nodes⟩
    · exact rfl
    · exact absurd h id
  | cons leg legs ih =>
    rcases nodes with _ | ⟨w, nodes⟩
    · exact absurd h id
    obtain ⟨hleg, hrest⟩ := h
    rw [List.forall_mem_cons] at hdirected
    have hlast : ((w :: nodes).getLast?.getD u) = nodes.getLast?.getD w := by
      cases nodes <;> rfl
    rw [hlast]
    exact ⟨w.id, hleg.takes hdirected.1, ih hrest hdirected.2⟩

/-- A variable with a single node, found by looking it up. -/
theorem SingleNodes.lookup {bound : List (String × GraphEntity)} {var : String}
    (h : SingleNodes bound) (hids : db.RowIds) (hmem : ∀ x ∈ bound, x.2 ∈ db.entities)
    (hvar : (var, v) ∈ bound) : bound.lookup var = some v := by
  cases hlookup : bound.lookup var with
  | none =>
    rw [List.lookup_eq_none_iff] at hlookup
    simpa using hlookup _ hvar
  | some w =>
    have hw : (var, w) ∈ bound := by
      obtain ⟨l, l', rfl, -⟩ := List.lookup_eq_some_iff.mp hlookup
      simp
    have hid : w.id = v.id := h _ hw _ hvar rfl
    exact congrArg some (List.inj_on_of_nodup_map hids.entities (hmem _ hw) (hmem _ hvar) hid)

/-- Fewer nodes let more through. -/
theorem groupsMatch_of_subset {nodeOf nodeOf' : String → Option GraphEntity}
    {groups : List (List WhereClause)} (h : groupsMatch ext groups nodeOf)
    (hsub : ∀ var node, nodeOf' var = some node → nodeOf var = some node) :
    groupsMatch ext groups nodeOf' := by
  simp only [groupsMatch, Bool.or_eq_true, List.any_eq_true, List.all_eq_true] at h ⊢
  rcases h with hempty | ⟨group, hgroup, hall⟩
  · exact .inl hempty
  · refine .inr ⟨group, hgroup, fun clause hclause => ?_⟩
    have hclauses := hall clause hclause
    cases hnode : nodeOf' clause.var with
    | none => rfl
    | some node =>
      rw [hsub _ _ hnode] at hclauses
      exact hclauses

/-- The ends of a sequence that is described are taken where edges lead from one to the other. -/
theorem ChainDescribed.taken {first : EdgeLeg} {rest : List EdgeLeg}
    (h : ChainDescribed ext db query (first :: rest) u nodes) (hids : db.RowIds)
    (hv : nodes.getLast? = some v)
    (hjoined : EndsAt db.tables.specs ((first :: rest).map legStep) u.id v.id) :
    ChainTaken ext db query (first :: rest) first.fromNode (lastLeg first rest).toNode u v := by
  obtain ⟨hvmem, hend, hvbound⟩ := h.fits.last List.getLast?_cons hv
  rcases nodes with _ | ⟨w, nodes⟩
  · cases hv
  obtain ⟨hleg, -⟩ := h.fits
  refine ⟨hleg.fromNode, hvmem, hleg.fromMatches, hend, ?_, hjoined⟩
  refine groupsMatch_of_subset h.holds fun var node hnode => ?_
  simp only [patternNodes] at hnode
  split at hnode
  · rename_i hvar
    cases hnode
    rw [hvar]
    exact h.single.lookup hids (fun _ => h.fits.mem_entities) (.head _)
  · split at hnode
    · rename_i hvar
      cases hnode
      rw [hvar]
      exact h.single.lookup hids (fun _ => h.fits.mem_entities) hvbound
    · cases hnode

end Rows

/-- A chain returns what it describes exactly where every pair of ends that is taken belongs to a
sequence that it describes, and every such sequence has ends that edges join outwards. -/
theorem multi_hop_iff (ext : Externals) (outcomes : List (Option String)) (ws : List Session.Write)
    (query : CypherQuery) (first : EdgeLeg) (rest : List EdgeLeg) :
    MultiHopExact ext (ws.foldl Session.write (Session.open outcomes)).db query first rest ↔
      (∀ u v, ChainTaken ext (ws.foldl Session.write (Session.open outcomes)).db query
          (first :: rest) first.fromNode (lastLeg first rest).toNode u v →
        ∃ nodes, nodes.getLast? = some v ∧ ChainDescribed ext
          (ws.foldl Session.write (Session.open outcomes)).db query (first :: rest) u nodes) ∧
      ∀ u v nodes, nodes.getLast? = some v →
        ChainDescribed ext (ws.foldl Session.write (Session.open outcomes)).db query
          (first :: rest) u nodes →
        EndsAt (ws.foldl Session.write (Session.open outcomes)).db.tables.specs
          ((first :: rest).map legStep) u.id v.id := by
  have hids := Session.rowIds_writes outcomes ws
  generalize (ws.foldl Session.write (Session.open outcomes)).db = db at hids ⊢
  constructor
  · intro hexact
    refine ⟨fun u v htaken => ?_, fun u v nodes hv hdescribed => ?_⟩
    · exact (hexact u v).mp ((mem_multiHopRows hids).mpr htaken)
    · exact ((mem_multiHopRows hids).mp ((hexact u v).mpr ⟨nodes, hv, hdescribed⟩)).joined
  · rintro ⟨htaken, hjoined⟩ u v
    rw [mem_multiHopRows hids]
    constructor
    · exact htaken u v
    · rintro ⟨nodes, hv, hdescribed⟩
      exact hdescribed.taken hids hv (hjoined u v nodes hv hdescribed)

/-- A caller of a caller, where the function between them has the wrong name. -/
theorem not_multi_hop : ¬ ∀ (ext : Externals) (outcomes : List (Option String))
    (ws : List Session.Write) (query : CypherQuery) (first : EdgeLeg) (rest : List EdgeLeg),
    MultiHopExact ext (ws.foldl Session.write (Session.open outcomes)).db query first rest := by
  intro h
  let first : EdgeLeg := ⟨"calls", .outgoing, ⟨"a", none, []⟩, ⟨"b", none, [("name", "stop")]⟩⟩
  let second : EdgeLeg := ⟨"calls", .outgoing, ⟨"b", none, [("name", "stop")]⟩, ⟨"c", none, []⟩⟩
  have hexact := h integerExternals [] calledTwice matchAll first [second]
  have htaken : ChainTaken integerExternals (calledTwice.foldl Session.write (Session.open [])).db
      matchAll [first, second] first.fromNode second.toNode
      ⟨1, "function", "main", none, .null⟩ ⟨3, "function", "exit", none, .null⟩ := by
    refine ⟨.head _, .tail _ (.tail _ (.head _)), rfl, rfl, rfl, ?_⟩
    refine ⟨2, ⟨⟨1, 2, "calls"⟩, .head _, ⟨rfl, rfl⟩, ?_⟩, 3, ⟨⟨2, 3, "calls"⟩, .tail _ (.head _),
      ⟨rfl, rfl⟩, ?_⟩, rfl⟩
    · rintro _ ⟨⟩
      rfl
    · rintro _ ⟨⟩
      rfl
  have hrow := (mem_multiHopRows (Session.rowIds_writes [] calledTwice)).mpr htaken
  obtain ⟨nodes, -, hdescribed⟩ := (hexact _ _).mp hrow
  rcases nodes with _ | ⟨w, nodes⟩
  · exact absurd hdescribed.fits id
  obtain ⟨hleg, -⟩ := hdescribed.fits
  have hnone : ∀ w ∈ (calledTwice.foldl Session.write (Session.open [])).db.entities,
      nodePatternMatches ⟨"b", none, [("name", "stop")]⟩ w = false := by decide
  have hmatches := hleg.toMatches
  rw [hnone w hleg.toNode] at hmatches
  cases hmatches

end SqliteGraph.Cypher
