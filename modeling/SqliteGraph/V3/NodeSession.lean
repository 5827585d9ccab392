import SqliteGraph.V3.BTreeMap
import SqliteGraph.V3.NodeBatches

/-! Runs of a node store: any calls one after the other, with the replies that a table of records gives. -/
namespace SqliteGraph.V3
open Lib

namespace NodeStore

/-- What the caller sees of a call: an error is a reply, unless the call did not come to an end or no
page is left to be handed out. -/
def observe {α : Type} (reply : Except NativeBackendError α → NodeReply) (x : NodeM α) : NodeM NodeReply :=
  fun s =>
    match x s with
    | (.ok a, s') => (.ok (reply (.ok a)), s')
    | (.error e, s') =>
      if e.Aborts ∨ e = .capacityOverflow then (.error e, s') else (.ok (reply (.error e)), s')

def exec (fuel : Nat) : NodeOp → NodeM NodeReply
  | .insert node => observe .inserted (insertNode node)
  | .update node => observe .updated (updateNode fuel node.id node)
  | .delete id => observe .deleted (deleteNode fuel id)
  | .lookup id => observe .found (lookupNode fuel id)
  | .lookupRo id => observe .found (lookupNodeRo fuel id)
  | .clearCache => observe (fun _ => .done) clearCache
  | .beginBatch => observe (fun _ => .done) beginBatch
  | .commitBatch => observe .committed commitBatch
  | .rollbackBatch => observe (fun _ => .done) rollbackBatch

def run (fuel : Nat) : List NodeOp → NodeM (List NodeReply)
  | [] => pure []
  | op :: ops => do
    let reply ← exec fuel op
    let replies ← run fuel ops
    pure (reply :: replies)

theorem writeAll_keeps {l : List (Sigma fun _ : Nat => NodePage)} :
    StoreM.Keeps NodeState.nextNodeId (writeAll l) := by
  induction l with
  | nil => exact .pure
  | cons e l ih =>
    exact StoreM.Keeps.ofExcept.bind fun _ => .bind (.modify fun _ => rfl) fun _ =>
      pageCacheInsert_keeps.bind fun _ => ih

theorem packAll_keeps {l : List (Sigma fun _ : Nat => NodePage)} :
    StoreM.Keeps NodeState.nextNodeId (packAll l) := by
  induction l with
  | nil => exact .pure
  | cons e l ih => exact StoreM.Keeps.ofExcept.bind fun _ => ih

theorem commitBatch_keeps : StoreM.Keeps NodeState.nextNodeId commitBatch := by
  refine .get_bind fun s => ?_
  split
  · split
    · exact hashOrder_keeps.bind fun _ => packAll_keeps.bind fun _ => writeAll_keeps.bind fun _ =>
        .bind (.modify fun _ => rfl) fun _ => .bind (.modify fun _ => rfl) fun _ => .pure
    · exact .bind (.modify fun _ => rfl) fun _ => .pure
  · exact .pure

end NodeStore

/-- The store holds what the table does. -/
def NodeHolds (s : NodeState) (m : NodeTable) : Prop :=
  (∃ nps es ps, NodeSim s m nps es ps) ∧ s.nextNodeId = m.nextId

variable {s : NodeState} {m m' : NodeTable} {op : NodeOp} {reply : NodeReply}

section Observe
variable {α : Type} {toReply : Except NativeBackendError α → NodeReply} {x : Nat → NodeM α}
  {P : NodeReply → NodeState → Prop}

/-- A call that comes to an end is observed, and so are its errors. -/
theorem observe_finishes {Q : Except NativeBackendError α → NodeState → Prop}
    (h : StoreM.Finishes PagesExhausted x s Q)
    (hq : ∀ res s', Q res s' → P (toReply res) s' ∧ ∀ e, res = .error e → ¬ e.Aborts) :
    StoreM.Settles PagesExhausted (fun fuel => NodeStore.observe toReply (x fuel)) s P := by
  obtain ⟨bound, ⟨res, s'⟩, hrun, hr⟩ := h
  have hobserve : ∀ fuel, bound ≤ fuel → NodeStore.observe toReply (x fuel) s =
      NodeStore.observe toReply (fun _ => (res, s')) s := by
    intro fuel hf
    simp only [NodeStore.observe, hrun fuel hf]
  refine ⟨bound, _, hobserve, ?_⟩
  cases res with
  | ok a =>
    rcases hr with ⟨e, he, -⟩ | hr
    · cases he
    · exact .inr ⟨_, rfl, (hq _ _ hr).1⟩
  | error e =>
    by_cases hends : e.Aborts ∨ e = .capacityOverflow
    · refine .inl ⟨e, ?_, ?_⟩
      · simp only [NodeStore.observe, if_pos hends]
      · rcases hends with habort | hcap
        · rcases hr with ⟨e', he', hstop⟩ | hr
          · cases he'
            exact hstop
          · exact ((hq _ _ hr).2 e rfl habort).elim
        · exact hcap
    · rcases hr with ⟨e', he', hstop⟩ | hr
      · cases he'
        exact (hends (.inr hstop)).elim
      · refine .inr ⟨toReply (.error e), ?_, ?_⟩
        · simp only [NodeStore.observe, if_neg hends]
        · simpa only [NodeStore.observe, if_neg hends] using (hq _ _ hr).1

theorem observe_settles {Q : α → NodeState → Prop} (h : StoreM.Settles PagesExhausted x s Q)
    (hq : ∀ a s', Q a s' → P (toReply (.ok a)) s') :
    StoreM.Settles PagesExhausted (fun fuel => NodeStore.observe toReply (x fuel)) s P := by
  refine observe_finishes (Q := fun res s' => ∃ a, res = .ok a ∧ Q a s')
    (.of_settles h fun a s' hq => ⟨a, rfl, hq⟩) ?_
  rintro res s' ⟨a, rfl, ha⟩
  refine ⟨hq a s' ha, ?_⟩
  intro e he
  cases he

theorem at_once {y : NodeM α} {a : α} {t : NodeState} (h : y s = (.ok a, t)) :
    StoreM.Settles PagesExhausted (fun _ => y) s fun _ s' => t = s' :=
  .of_run h rfl

end Observe

namespace NodeTable

/-- The ids handed out by a call. -/
def takes (op : NodeOp) : Nat := if op.isInsert then 1 else 0

/-- The ids that are left for the calls to come. -/
def Room (m : NodeTable) (ops : List NodeOp) : Prop :=
  0 < m.nextId.toInt ∧ m.nextId.toInt + (ops.countP NodeOp.isInsert : Nat) ≤ 2 ^ 32

theorem nextId_succ {n : Int64} (hpos : 0 < n.toInt) (hle : n.toInt + 1 ≤ 2 ^ 32) :
    (n + 1).toInt = n.toInt + 1 := by
  rw [Int64.toInt_add]
  change Int.bmod (n.toInt + 1) (2 ^ 64) = _
  rw [Int.bmod_def]
  omega

theorem Step.batch (h : Step m op reply m') : m'.batch = op.leavesBatch m.batch := by
  cases h <;> rfl

theorem Step.room {ops : List NodeOp} (h : Step m op reply m') (hr : m.Room (op :: ops)) : m'.Room ops := by
  obtain ⟨hpos, hle⟩ := hr
  rw [List.countP_cons] at hle
  have hskip : op.isInsert = true → (m.skipId).Room ops := by
    intro hi
    rw [if_pos hi] at hle
    have hnext := nextId_succ hpos (by omega)
    constructor
    · change 0 < (m.nextId + 1).toInt
      omega
    · change (m.nextId + 1).toInt + _ ≤ _
      omega
  have hsame : m'.nextId = m.nextId → m'.Room ops := by
    intro he
    rw [Room, he]
    constructor
    · exact hpos
    · split at hle <;> omega
  cases h with
  | inserted _ => exact hskip rfl
  | refused _ => exact hskip rfl
  | _ => exact hsame rfl

end NodeTable

section Step

/-- One call, from a store that holds a table. -/
theorem NodeHolds.exec (h : NodeHolds s m) (hbuilt : op.Built) (hin : op.InBatch m.batch)
    (hroom : m.Room [op]) :
    StoreM.Settles PagesExhausted (fun fuel => NodeStore.exec fuel op) s fun reply s' =>
      ∃ m', NodeHolds s' m' ∧ NodeTable.Step m op reply m' := by
  obtain ⟨⟨nps, es, ps, hs⟩, hnext⟩ := h
  cases op with
  | insert node =>
    have hle : m.nextId.toInt + 1 ≤ 2 ^ 32 := hroom.2
    have hn := NodeTable.nextId_succ hroom.1 hle
    refine observe_finishes (hs.insertNode hnext hbuilt hn (by omega)) ?_
    rintro res s' ⟨⟨nps', es', ps', m', hs', hcount, hstep⟩, herr⟩
    exact ⟨⟨m', ⟨⟨nps', es', ps', hs'⟩, hcount⟩, hstep⟩, herr⟩
  | update node =>
    refine observe_finishes ((hs.updateNode hin hbuilt).keeps fun _ => NodeStore.updateNode_keeps) ?_
    rintro res s' ⟨⟨⟨nps', es', ps', m', hs', hstep⟩, herr⟩, hcount⟩
    refine ⟨⟨m', ⟨⟨nps', es', ps', hs'⟩, (hcount.trans hnext).trans ?_⟩, hstep⟩, herr⟩
    cases hstep <;> rfl
  | delete id =>
    refine observe_settles ((hs.deleteNode hin id).keeps fun _ => NodeStore.deleteNode_keeps) ?_
    rintro found s' ⟨⟨rfl, nps', es', ps', hs'⟩, hcount⟩
    exact ⟨_, ⟨⟨nps', es', ps', hs'⟩, hcount.trans hnext⟩, .deleted⟩
  | lookup id =>
    refine observe_settles ((hs.lookupNode id).keeps fun _ => NodeStore.lookupNode_keeps) ?_
    rintro r s' ⟨⟨hrel, hs'⟩, hcount⟩
    exact ⟨m, ⟨⟨nps, es, ps, hs'⟩, hcount.trans hnext⟩, .found hrel⟩
  | lookupRo id =>
    refine observe_settles ((hs.lookupNodeRo id).keeps fun _ => NodeStore.lookupNodeRo_keeps) ?_
    rintro r s' ⟨⟨hrel, hs'⟩, hcount⟩
    exact ⟨m, ⟨⟨nps, es, ps, hs'⟩, hcount.trans hnext⟩, .foundRo hrel⟩
  | clearCache =>
    have hs' : NodeSim { s with store := { s.store with pageCache := ∅ } } m nps es ps :=
      hs.caches (fun _ _ h => by cases h) hs.unpacked
    change StoreM.Settles _ (fun _ => NodeStore.observe (fun _ => NodeReply.done) NodeStore.clearCache) s _
    refine observe_settles (at_once rfl) ?_
    rintro - s' rfl
    exact ⟨m, ⟨⟨nps, es, ps, hs'⟩, hnext⟩, .clearCache⟩
  | beginBatch =>
    change StoreM.Settles _ (fun _ => NodeStore.observe (fun _ => NodeReply.done) NodeStore.beginBatch) s _
    refine observe_settles (at_once rfl) ?_
    rintro - s' rfl
    exact ⟨m.beginBatch, ⟨⟨nps, es, ps, hs.unstage true⟩, hnext⟩, .beginBatch⟩
  | commitBatch =>
    obtain ⟨n, t, hrun, ht⟩ := hs.commitBatch
    refine observe_settles ((at_once hrun).keeps fun _ => NodeStore.commitBatch_keeps) ?_
    rintro n s' ⟨rfl, hcount⟩
    exact ⟨m.commitBatch, ⟨⟨nps, es, ps, ht⟩, hcount.trans hnext⟩, .commitBatch⟩
  | rollbackBatch =>
    change StoreM.Settles _ (fun _ => NodeStore.observe (fun _ => NodeReply.done) NodeStore.rollbackBatch) s _
    refine observe_settles (at_once rfl) ?_
    rintro - s' rfl
    exact ⟨m.rollbackBatch, ⟨⟨nps, es, ps, hs.unstage false⟩, hnext⟩, .rollbackBatch⟩

/-- Any calls, from a store that holds a table. -/
theorem NodeHolds.run {ops : List NodeOp} (h : NodeHolds s m) (hbuilt : ∀ op ∈ ops, op.Built)
    (hin : NodeOp.BatchesInsert m.batch ops) (hroom : m.Room ops) :
    StoreM.Settles PagesExhausted (fun fuel => NodeStore.run fuel ops) s fun replies s' =>
      ∃ m', NodeHolds s' m' ∧ NodeTable.Run m ops replies m' := by
  induction ops generalizing s m with
  | nil => exact .of_run (t := s) rfl ⟨m, h, .nil⟩
  | cons op ops ih =>
    obtain ⟨hin, hins⟩ := hin
    have hfirst : m.Room [op] := by
      obtain ⟨hpos, hle⟩ := hroom
      rw [List.countP_cons] at hle
      refine ⟨hpos, ?_⟩
      rw [List.countP_cons, List.countP_nil]
      omega
    refine (h.exec (hbuilt op List.mem_cons_self) hin hfirst).bind ?_
    rintro reply s₁ ⟨m₁, h₁, hstep⟩
    have hrest := ih h₁ (fun op hop => hbuilt op (List.mem_cons_of_mem _ hop)) (hstep.batch ▸ hins)
      (hstep.room hroom)
    refine hrest.bind ?_
    rintro replies s₂ ⟨m₂, h₂, hrun⟩
    exact .of_run (t := s₂) rfl ⟨m₂, h₂, .cons hstep hrun⟩

end Step

/-- Calls as a client of the backend makes them, and no more than the page format has ids for. -/
structure NodeOp.Session (ops : List NodeOp) : Prop where
  built : ∀ op ∈ ops, op.Built
  batches : NodeOp.BatchesInsert false ops
  few : ops.countP NodeOp.isInsert < 2 ^ 32

section Created
variable (file : ByteFile) (capacity : Nat) (choices cacheChoices : Nat → Nat)

theorem nodeHolds_create :
    NodeHolds (.create file .newV3 capacity choices cacheChoices) .empty := by
  refine ⟨⟨[], [], [], ?_⟩, rfl⟩
  have hnone : ∀ {β : Type} {p : Nat} {b : β}, (∅ : AList fun _ : Nat => β).lookup p = some b → False := by
    intro β p b hb
    cases hb
  refine ⟨⟨⟨Nat.zero_le _, ?_, by simp, by simp, ?_, ?_, ?_, fun _ => rfl, ?_⟩, ?_, ?_, fun _ _ => rfl,
    by decide, by decide⟩, rfl, fun _ => rfl, fun _ => rfl⟩
  · intro q pg hq
    cases hq
  · exact fun p bytes h => (hnone h).elim
  · exact fun p page h => (hnone h).elim
  · exact fun p page h => (hnone h).elim
  · intro b l hl
    cases hl
  · exact emptyTree_inv file .newV3 defaultCacheCapacity cacheChoices
  · intro key p hl
    cases hl

/-- Every session runs to its end, or to where no page is left. -/
theorem NodeOp.Session.run {ops : List NodeOp} (h : NodeOp.Session ops) :
    StoreM.Settles PagesExhausted (fun fuel => NodeStore.run fuel ops)
      (.create file .newV3 capacity choices cacheChoices) fun replies s =>
        ∃ m, NodeHolds s m ∧ NodeTable.Run .empty ops replies m := by
  refine (nodeHolds_create file capacity choices cacheChoices).run h.built h.batches ⟨by decide, ?_⟩
  have hone : NodeTable.empty.nextId.toInt = 1 := by decide
  have hfew := h.few
  omega

end Created

/-- A record with a few bytes of data. -/
def noteRecord (id : Int64) (data : Bytes) : NodeRecordV3 :=
  ⟨id, 0, 1, 2, .ofNat data.length, some data, none, 0, 0, 0, 0⟩

theorem noteRecord_built (id : Int64) {data : Bytes} (h : UInt16.ofNat data.length ≤ maxInlineData) :
    (noteRecord id data).Built :=
  .inl ⟨id, 0, 1, 2, data, 0, 0, 0, 0, if_pos h⟩

/-- Two records, one of them in a batch, a change and a deletion. -/
def noteSession : List NodeOp :=
  [.insert (noteRecord 0 [7]), .beginBatch, .insert (noteRecord 0 [8]), .lookup 2, .lookupRo 2, .commitBatch,
    .update (noteRecord 1 [9]), .lookupRo 1, .delete 2, .clearCache, .lookup 2]

theorem note_built (id : Int64) (b : UInt8) : (noteRecord id [b]).Built :=
  noteRecord_built id (show UInt16.ofNat 1 ≤ maxInlineData by decide)

theorem noteSession_session : NodeOp.Session noteSession where
  built := by simp [noteSession, NodeOp.Built, note_built]
  batches := by decide
  few := by decide

namespace NodeStore

/-- The page that a lookup searches. -/
def pageOf (fuel : Nat) (nodeId : Int64) : NodeM (Option NodePage) := do
  let found ← lookupPage fuel nodeId
  match found with
  | none => pure none
  | some pageId => do
    let page ← loadNodePage pageId
    pure (some page)

end NodeStore

theorem NodeSim.pageOf {nps ps : List Nat} {es : List (Nat × Nat)} {Stop : NativeBackendError → Prop}
    (h : NodeSim s m nps es ps) (id : Int64) :
    StoreM.Settles Stop (fun fuel => NodeStore.pageOf fuel id) s fun found _ =>
      (found = none → m.visible id = none) ∧ ∀ page, found = some page →
        NodePage.Increasing page.nodes ∧ (∀ id, page.findNode id = page.recordWith id) ∧
          Option.Rel NodeRecordV3.Same (m.visible id) (page.findNode id) := by
  refine (h.lookupPage id).bind ?_
  rintro found s₁ ⟨rfl, h₁, -, -⟩
  cases hl : es.lookup (searchKey id) with
  | none =>
    refine .of_run (t := s₁) rfl ⟨fun _ => h.invisible hl, ?_⟩
    intro page hp
    cases hp
  | some p =>
    refine (h₁.loadNodePage (h₁.bound _ _ hl)).bind ?_
    rintro page s₂ ⟨hcurrent, hsound, -, -, -⟩
    have hfind := NodePage.recordWith_eq_find hsound.increasing
    refine .of_run (t := s₂) rfl ⟨?_, ?_⟩
    · intro hp
      cases hp
    · intro page' hp
      cases hp
      exact ⟨hsound.increasing, hfind, hfind id ▸ rel_of_packed (h₁.recordOn hl hcurrent)⟩

/-- The pages that lookups search stay sorted in every session, staged or not, so that a binary search of
one finds what a scan does: the record of the table. -/
theorem searched_pages_sorted (file : ByteFile) (capacity : Nat) (choices cacheChoices : Nat → Nat)
    {ops : List NodeOp} (h : NodeOp.Session ops) :
    StoreM.Settles PagesExhausted (fun fuel => NodeStore.run fuel ops)
      (.create file .newV3 capacity choices cacheChoices) fun replies s =>
        ∃ m, NodeTable.Run .empty ops replies m ∧ ∀ id,
          StoreM.Settles (fun _ => False) (fun fuel => NodeStore.pageOf fuel id) s fun found _ =>
            (found = none → m.visible id = none) ∧ ∀ page, found = some page →
              NodePage.Increasing page.nodes ∧ (∀ id, page.findNode id = page.recordWith id) ∧
                Option.Rel NodeRecordV3.Same (m.visible id) (page.findNode id) := by
  refine (h.run file capacity choices cacheChoices).mono ?_
  rintro replies s ⟨m, ⟨⟨nps, es, ps, hs⟩, -⟩, hrun⟩
  exact ⟨m, hrun, fun id => hs.pageOf id⟩

theorem searched_pages_sorted_notes :
    StoreM.Settles PagesExhausted (fun fuel => NodeStore.run fuel noteSession)
      (.create .empty .newV3 nodePageCacheSize (fun _ => 0) fun _ => 0) fun replies s =>
        ∃ m, NodeTable.Run .empty noteSession replies m ∧ ∀ id,
          StoreM.Settles (fun _ => False) (fun fuel => NodeStore.pageOf fuel id) s fun found _ =>
            (found = none → m.visible id = none) ∧ ∀ page, found = some page →
              NodePage.Increasing page.nodes ∧ (∀ id, page.findNode id = page.recordWith id) ∧
                Option.Rel NodeRecordV3.Same (m.visible id) (page.findNode id) :=
  searched_pages_sorted .empty nodePageCacheSize (fun _ => 0) (fun _ => 0) noteSession_session

section Transactions
variable {ops ops' body : List NodeOp} {replies : List NodeReply} {id : Int64}

theorem NodeRecordV3.Same.symm {r t : NodeRecordV3} (h : r.Same t) : t.Same r :=
  ⟨h.id.symm, h.flags.symm, h.kindOffset.symm, h.nameOffset.symm, h.dataLen.symm, h.dataInline.symm,
    h.dataExternalOffset.symm, h.outgoingClusterOffset.symm, h.outgoingEdgeCount.symm,
    h.incomingClusterOffset.symm, h.incomingEdgeCount.symm⟩

theorem NodeRecordV3.Same.trans {r t u : NodeRecordV3} (h : r.Same t) (h' : t.Same u) : r.Same u :=
  ⟨h.id.trans h'.id, h.flags.trans h'.flags, h.kindOffset.trans h'.kindOffset,
    h.nameOffset.trans h'.nameOffset, h.dataLen.trans h'.dataLen, h.dataInline.trans h'.dataInline,
    h.dataExternalOffset.trans h'.dataExternalOffset,
    h.outgoingClusterOffset.trans h'.outgoingClusterOffset,
    h.outgoingEdgeCount.trans h'.outgoingEdgeCount, h.incomingClusterOffset.trans h'.incomingClusterOffset,
    h.incomingEdgeCount.trans h'.incomingEdgeCount⟩

/-- Two answers for one record. -/
theorem rel_of_common {o r r' : Option NodeRecordV3} (h : Option.Rel NodeRecordV3.Same o r)
    (h' : Option.Rel NodeRecordV3.Same o r') : Option.Rel NodeRecordV3.Same r r' := by
  cases h with
  | none =>
    cases h'
    exact .none
  | some hs =>
    cases h' with
    | some hs' => exact .some (hs.symm.trans hs')

namespace NodeTable

/-- Outside a batch everything is committed. -/
def Settled (m : NodeTable) : Prop := m.batch = false → m.visible = m.committed

theorem Step.settled (h : Step m op reply m') (hs : m.Settled) : m'.Settled := by
  have hwrite : ∀ id r, (m.write id r).Settled := by
    intro id r hb
    have hb : m.batch = false := hb
    simp only [write, hb, hs hb, Bool.false_eq_true, if_false]
  cases h with
  | inserted _ => exact hwrite _ _
  | updated _ => exact hwrite _ _
  | deleted => exact hwrite _ _
  | beginBatch => exact fun _ => rfl
  | commitBatch => exact fun _ => rfl
  | rollbackBatch => exact fun _ => rfl
  | _ => exact hs

/-- What is committed stays so while a batch is open. -/
theorem Step.keeps_committed (h : Step m op reply m') (hb : m.batch = true)
    (hop : op.leavesBatch true = true) : m'.committed = m.committed ∧ m'.batch = true := by
  have hwrite : ∀ id r, (m.write id r).committed = m.committed := by
    intro id r
    simp only [write, hb, if_true]
  cases h with
  | inserted _ => exact ⟨hwrite _ _, hb⟩
  | updated _ => exact ⟨hwrite _ _, hb⟩
  | deleted => exact ⟨hwrite _ _, hb⟩
  | beginBatch => exact ⟨rfl, rfl⟩
  | commitBatch => cases hop
  | rollbackBatch => cases hop
  | _ => exact ⟨rfl, hb⟩

theorem Run.settled (h : Run m ops replies m') (hs : m.Settled) : m'.Settled := by
  induction h with
  | nil => exact hs
  | cons hstep _ ih => exact ih (hstep.settled hs)

theorem Run.batch (h : Run m ops replies m') : m'.batch = ops.foldl (fun b op => op.leavesBatch b) m.batch := by
  induction h with
  | nil => rfl
  | cons hstep _ ih => rw [ih, hstep.batch, List.foldl_cons]

theorem Run.keeps_committed (h : Run m ops replies m') (hb : m.batch = true)
    (hops : ∀ op ∈ ops, op.leavesBatch true = true) : m'.committed = m.committed := by
  induction h with
  | nil => rfl
  | cons hstep _ ih =>
    obtain ⟨hkept, hb'⟩ := hstep.keeps_committed hb (hops _ List.mem_cons_self)
    exact (ih hb' fun op hop => hops op (List.mem_cons_of_mem _ hop)).trans hkept

/-- A run of calls one after the other is a run of the first and then of the others. -/
theorem Run.append (h : Run m (ops ++ ops') replies m') : ∃ rs rs' mid, replies = rs ++ rs' ∧
    rs.length = ops.length ∧ Run m ops rs mid ∧ Run mid ops' rs' m' := by
  induction ops generalizing m replies with
  | nil => exact ⟨[], replies, m, rfl, rfl, .nil, h⟩
  | cons op ops ih =>
    cases h with
    | cons hstep hrest =>
      obtain ⟨rs, rs', mid, rfl, hlen, hfirst, hlast⟩ := ih hrest
      exact ⟨_ :: rs, rs', mid, rfl, by rw [List.length_cons, hlen, List.length_cons], .cons hstep hfirst,
        hlast⟩

theorem Run.lookup (h : Run m (.lookup id :: ops) replies m') : ∃ r rs, replies = .found (.ok r) :: rs ∧
    Option.Rel NodeRecordV3.Same (m.visible id) r ∧ Run m ops rs m' := by
  cases h with
  | cons hstep hrest =>
    cases hstep with
    | found hrel => exact ⟨_, _, rfl, hrel, hrest⟩

theorem Run.lookupRo (h : Run m (.lookupRo id :: ops) replies m') : ∃ r rs, replies = .found (.ok r) :: rs ∧
    Option.Rel NodeRecordV3.Same (m.committed id) r ∧ Run m ops rs m' := by
  cases h with
  | cons hstep hrest =>
    cases hstep with
    | foundRo hrel => exact ⟨_, _, rfl, hrel, hrest⟩

end NodeTable

/-- The two ways to look a record up agree whenever no batch is open, whatever has been cached, staged,
committed or rolled back before. -/
theorem lookup_ro_agrees (file : ByteFile) (capacity : Nat) (choices cacheChoices : Nat → Nat)
    (h : NodeOp.Session (ops ++ [.lookup id, .lookupRo id]))
    (hclosed : ops.foldl (fun b op => op.leavesBatch b) false = false) :
    StoreM.Settles PagesExhausted (fun fuel => NodeStore.run fuel (ops ++ [.lookup id, .lookupRo id]))
      (.create file .newV3 capacity choices cacheChoices) fun replies _ =>
        ∃ before r r', replies = before ++ [.found (.ok r), .found (.ok r')] ∧
          Option.Rel NodeRecordV3.Same r r' := by
  refine (h.run file capacity choices cacheChoices).mono ?_
  rintro replies s ⟨m, -, hrun⟩
  obtain ⟨before, last, mid, rfl, -, hbefore, hlast⟩ := hrun.append
  have hsettled : mid.visible = mid.committed :=
    hbefore.settled (fun _ => rfl) (hbefore.batch.trans hclosed)
  obtain ⟨r, rs, rfl, hr, hlast⟩ := hlast.lookup
  obtain ⟨r', rs', rfl, hr', hlast⟩ := hlast.lookupRo
  cases hlast
  exact ⟨before, r, r', rfl, rel_of_common hr (hsettled ▸ hr')⟩

theorem lookup_ro_agrees_notes :
    StoreM.Settles PagesExhausted (fun fuel => NodeStore.run fuel (noteSession ++ [.lookup 1, .lookupRo 1]))
      (.create .empty .newV3 nodePageCacheSize (fun _ => 0) fun _ => 0) fun replies _ =>
        ∃ before r r', replies = before ++ [.found (.ok r), .found (.ok r')] ∧
          Option.Rel NodeRecordV3.Same r r' :=
  lookup_ro_agrees .empty nodePageCacheSize (fun _ => 0) (fun _ => 0)
    ⟨by simp [noteSession, NodeOp.Built, note_built], by decide, by decide⟩ rfl

/-- After a rollback every record is found as it was before the batch, or not at all if it was not there,
whatever was inserted, looked up and dropped from the cache meanwhile. -/
theorem rollback_restores (file : ByteFile) (capacity : Nat) (choices cacheChoices : Nat → Nat)
    (h : NodeOp.Session (ops ++ (.lookup id :: .beginBatch :: (body ++ [.rollbackBatch, .lookup id]))))
    (hclosed : ops.foldl (fun b op => op.leavesBatch b) false = false)
    (hbody : ∀ op ∈ body, op.leavesBatch true = true) :
    StoreM.Settles PagesExhausted (fun fuel =>
        NodeStore.run fuel (ops ++ (.lookup id :: .beginBatch :: (body ++ [.rollbackBatch, .lookup id]))))
      (.create file .newV3 capacity choices cacheChoices) fun replies _ =>
        ∃ before between r r', before.length = ops.length ∧ between.length = body.length ∧
          replies = before ++ (.found (.ok r) :: .done :: (between ++ [.done, .found (.ok r')])) ∧
          Option.Rel NodeRecordV3.Same r r' := by
  refine (h.run file capacity choices cacheChoices).mono ?_
  rintro replies s ⟨m, -, hrun⟩
  obtain ⟨before, last, mid, rfl, hlen, hbefore, hlast⟩ := hrun.append
  have hsettled : mid.visible = mid.committed :=
    hbefore.settled (fun _ => rfl) (hbefore.batch.trans hclosed)
  obtain ⟨r, rs, rfl, hr, hlast⟩ := hlast.lookup
  cases hlast with
  | cons hbegin hlast =>
    cases hbegin
    obtain ⟨between, rest, mid', rfl, hlen', hbetween, hlast⟩ := hlast.append
    have hkept : mid'.committed = mid.committed := hbetween.keeps_committed rfl hbody
    cases hlast with
    | cons hroll hlast =>
      cases hroll
      obtain ⟨r', rs', rfl, hr', hlast⟩ := hlast.lookup
      cases hlast
      have hr' : Option.Rel NodeRecordV3.Same (mid'.committed id) r' := hr'
      rw [hkept, ← hsettled] at hr'
      exact ⟨before, between, r, r', hlen, hlen', rfl, rel_of_common hr hr'⟩

/-- A record inserted in a batch that is rolled back. -/
def lostNote : List NodeOp := [.insert (noteRecord 0 [8]), .lookup 2, .clearCache]

theorem rollback_restores_lostNote :
    StoreM.Settles PagesExhausted (fun fuel => NodeStore.run fuel ([.insert (noteRecord 0 [7])] ++
        (.lookup 2 :: .beginBatch :: (lostNote ++ [.rollbackBatch, .lookup 2]))))
      (.create .empty .newV3 nodePageCacheSize (fun _ => 0) fun _ => 0) fun replies _ =>
        ∃ before between r r', before.length = 1 ∧ between.length = 3 ∧
          replies = before ++ (.found (.ok r) :: .done :: (between ++ [.done, .found (.ok r')])) ∧
          Option.Rel NodeRecordV3.Same r r' :=
  rollback_restores .empty nodePageCacheSize (fun _ => 0) (fun _ => 0)
    ⟨by simp [lostNote, NodeOp.Built, note_built], by decide, by decide⟩ rfl
    (by decide)

end Transactions

end SqliteGraph.V3
