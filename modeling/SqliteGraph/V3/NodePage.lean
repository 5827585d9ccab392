import SqliteGraph.V3.Constants
import SqliteGraph.V3.NodeRecord

/-! Node pages: records added one by one, packed against the least id, and their 4 KB image. -/
namespace SqliteGraph.V3
open Lib

def nodePageHeaderSize : Nat := 32
def usableSize : Nat := defaultPageSize - nodePageHeaderSize

/-- `BLOCK_SIZE`. -/
def blockSize : Int64 := 128

def nodeIdToBlock (nodeId : Int64) : Int64 := if nodeId < 1 then 0 else (nodeId - 1) / blockSize

structure NodePage where
  pageId : UInt64
  nextPageId : UInt64
  nodes : List NodeRecordV3
  usedBytes : UInt16
  baseId : Int64
  checksum : Nat
  blockId : Int64
  deriving DecidableEq

namespace NodePage

def new (pageId : UInt64) : NodePage := ⟨pageId, 0, [], 0, 0, 0, 0⟩

/-- What is left of the data region, saturating. -/
def capacity (page : NodePage) : UInt16 := .ofNat (usableSize - page.usedBytes.toNat)

def packNodes (page : NodePage) : Bytes := page.nodes.flatMap (NodeRecordV3.pack page.baseId)

/-- The least id, once the record is on the page. -/
def tempBaseId (page : NodePage) (node : NodeRecordV3) : Int64 :=
  if page.nodes.isEmpty then node.id else min page.baseId node.id

/-- The record put on the page, counted by its estimated size. -/
def push (page : NodePage) (node : NodeRecordV3) (compressedSize : UInt16) : NodePage :=
  { page with
    baseId := page.tempBaseId node
    nodes := page.nodes ++ [node]
    usedBytes := page.usedBytes + compressedSize }

/-- The record taken off again, with its size, and the base as the rest has it. -/
def rollback (page : NodePage) (compressedSize : UInt16) : NodePage :=
  let nodes := page.nodes.dropLast
  { page with
    nodes
    usedBytes := page.usedBytes - compressedSize
    baseId := (nodes.map NodeRecordV3.id).min?.getD page.baseId }

/-- The result, and the page as the call leaves it. -/
def addNode (page : NodePage) (node : NodeRecordV3) : Except NativeBackendError Unit × NodePage :=
  match node.estimateCompressedSize (page.tempBaseId node) with
  | .error e => (.error e, page)
  | .ok compressedSize =>
    if page.capacity < compressedSize then
      (.error (.invalidHeader "node_page" ("adding node would exceed page capacity: " ++
        s!"need {compressedSize} bytes, have {page.capacity} remaining")), page)
    else
      let page := page.push node compressedSize
      let actualPackedSize := page.packNodes.length
      if usableSize < actualPackedSize then
        let page := page.rollback compressedSize
        (.error (.invalidHeader "node_page" (s!"page {page.pageId} full: " ++
          s!"node_count={page.nodes.length}, used_bytes={page.usedBytes}, actual packed " ++
          s!"{actualPackedSize} exceeds USABLE_SIZE {usableSize} " ++
          s!"(new node estimated {compressedSize})")), page)
      else
        (.ok (), { page with
          usedBytes := .ofNat actualPackedSize
          blockId := nodeIdToBlock page.baseId })

def headerBytes (page : NodePage) (usedBytes checksum : Nat) : Bytes :=
  beBytes 8 page.pageId.toNat ++ (beBytes 8 page.nextPageId.toNat ++
    (beBytes 2 page.nodes.length ++ (beBytes 2 usedBytes ++
      (beBytes 8 page.baseId.toUInt64.toNat ++ beBytes 4 checksum))))

/-- Over the header with an empty checksum field and the packed records. -/
def calculateChecksumWithNodes (page : NodePage) : Nat :=
  checksum32 (page.headerBytes page.usedBytes.toNat 0 ++ page.packNodes)

/-- The length is written as it is packed, whatever the page has counted. -/
def pack (page : NodePage) : Except NativeBackendError Bytes :=
  let nodeData := page.packNodes
  if defaultPageSize < nodePageHeaderSize + nodeData.length then
    .error (.invalidHeader "node_page"
      s!"page overflow: header {nodePageHeaderSize} + data {nodeData.length} > {defaultPageSize}")
  else
    let checksum := checksum32 (page.headerBytes nodeData.length 0 ++ nodeData)
    let bytes := page.headerBytes nodeData.length checksum ++ nodeData
    .ok (bytes ++ List.replicate (defaultPageSize - bytes.length) 0)

/-- The records at the front of the data, and what is left of it. -/
def unpackNodes (baseId : Int64) : Nat → Bytes → Except NativeBackendError (List NodeRecordV3 × Bytes)
  | 0, data => .ok ([], data)
  | nodeCount + 1, data => do
    let (node, data) ← NodeRecordV3.unpack baseId data
    let (nodes, data) ← unpackNodes baseId nodeCount data
    .ok (node :: nodes, data)

def nodeCountField (bytes : Bytes) : Nat := beNat (slice bytes 16 2)
def usedBytesField (bytes : Bytes) : Nat := beNat (slice bytes 18 2)
def baseIdField (bytes : Bytes) : Int64 := (UInt64.ofNat (beNat (slice bytes 20 8))).toInt64

def unpack (bytes : Bytes) : Except NativeBackendError NodePage :=
  if bytes.length < defaultPageSize then
    .error (.invalidHeader "node_page"
      s!"insufficient bytes: expected {defaultPageSize}, found {bytes.length}")
  else
    let usedBytes := usedBytesField bytes
    let baseId := baseIdField bytes
    let checksum := beNat (slice bytes 28 4)
    if defaultPageSize < nodePageHeaderSize + usedBytes then
      .error (.invalidHeader "node_page" ("used_bytes exceeds page boundary: " ++
        s!"{nodePageHeaderSize} + {usedBytes} > {defaultPageSize}"))
    else
      match unpackNodes baseId (nodeCountField bytes) (slice bytes nodePageHeaderSize usedBytes) with
      | .error e => .error e
      | .ok (nodes, rest) =>
        if rest ≠ [] then
          .error (.invalidHeader "node_page" ("node data size mismatch: " ++
            s!"expected {usedBytes} bytes, actually used {usedBytes - rest.length}"))
        else
          let page : NodePage := ⟨.ofNat (beNat (slice bytes 0 8)), .ofNat (beNat (slice bytes 8 8)),
            nodes, .ofNat usedBytes, baseId, checksum, nodeIdToBlock baseId⟩
          if page.calculateChecksumWithNodes ≠ checksum then
            .error (.invalidHeader "node_page_checksum" ("checksum mismatch: " ++
              s!"expected {page.calculateChecksumWithNodes}, found {checksum}"))
          else .ok page

end NodePage

end SqliteGraph.V3
