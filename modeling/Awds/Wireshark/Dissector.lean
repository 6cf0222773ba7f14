import Awds.Lib.Layout

/-!
# The Wireshark dissector: `wireshark/awds/packet-awds.c`

| here | there |
| --- | --- |
| `Tvb`                  | `tvbuff_t`: the captured bytes |
| `Hf`, `Tree`           | the `hf_awds_*` fields, the trees and subtrees (`ett_awds_*`) |
| `Dissector`            | code that adds items and may throw `ReportedBoundsError` on the way |
| `Env`                  | `check_col` of each column, and whether `eth_handle` was found |
| `dissectAwds` and the functions above it | `dissect_awds` (:636), `dissect_awds_beacon` (:424), `dissect_awds_topo` (:470), ... |

Wireshark's own functions are not in the repository: a tvb accessor is a bounds-checked read, and so
is the addition of an item. The embedded dissector is a call that is recorded (`Out.eth`), as are the
texts of the columns and of the link entries. Field tables (`hf_register_info`) are for display and
not used here. Offsets and counts stay far below the range of a `gint`.
-/

namespace Wireshark

open Layout (Item)

abbrev Tvb := List UInt8

inductive Hf where
  | protoAwds | type | flags | flag0 | flag1 | flag2 | flag3 | flag4 | flag5 | srcMacAddr | seqNo
  | beaconInt | beaconNmprCnt | beaconMprCnt | beaconNmbrLst | beaconNmbrMacAddr | beaconMbrLst | beaconMbrMacAddr
  | floodLasthopMacAddr | floodTtl | unicastDestMacAddr | unicastNexthopMacAddr | unicastTtl | subtype
  | topoValidity | topoLinkCnt | topoLinkLst | topoLinkMacAddr | topoLinkCost | topoNodeNameLen | topoNodeName
  | cryptoIv | cryptoNonce
  /-- `proto_tree_add_text` -/
  | text
deriving DecidableEq, Repr

/-- The tree handed to `dissect_awds`, and its subtrees. -/
inductive Tree where
  | root | awds | flags | beaconNmbrLst | beaconMbrLst | subtype | topoLinkLst | topoLinkEntry
deriving DecidableEq, Repr

/-- Where an item was added, and as what. -/
structure Label where
  tree : Tree
  hf : Hf
deriving DecidableEq, Repr

def awdsBeacon : UInt8 := 0x00
def awdsFlood : UInt8 := 0x01
def awdsUnicast : UInt8 := 0x02
def awdsTopo : UInt8 := 0x00
def awdsCrypto : UInt8 := 0x63
def awdsCapData : UInt8 := 0x62

inductive Column where
  | protocol | info
deriving DecidableEq, Repr

/-- A call that changes a column. -/
inductive ColChange where
  | add (c : Column) (s : String)
  | append (c : Column) (s : String)
  | setFence
deriving DecidableEq, Repr

structure Env where
  checkCol : Column → Bool
  ethHandle : Bool

/-- What the dissector has put out so far. -/
structure Out where
  items : List (Item Label)
  /-- The texts of the link entries. -/
  texts : List String
  col : Column → String
  /-- `col_set_fence` on the info column -/
  fence : Bool
  /-- The changes of the columns, in order. -/
  changes : List ColChange
  /-- What the embedded dissector was called with. -/
  eth : List Tvb

def Out.init : Out := ⟨[], [], fun _ => "", false, [], []⟩

/-- The result `none` is an exception. What was put out before stays. -/
def Dissector (α : Type) : Type := Out → Out × Option α

instance : Monad Dissector where
  pure a := fun o => (o, some a)
  bind m k := fun o => match m o with
    | (o', some a) => k a o'
    | (o', none) => (o', none)

def Dissector.modify (f : Out → Out) : Dissector Unit := fun o => (f o, some ())

/-! ## Wireshark's functions -/

def tvbEnsureBytesExist (tvb : Tvb) (offset length : Nat) : Dissector Unit :=
  fun o => if offset + length ≤ tvb.length then (o, some ()) else (o, none)

def tvbGetGuint8 (tvb : Tvb) (offset : Nat) : Dissector UInt8 := do
  tvbEnsureBytesExist tvb offset 1
  pure (tvb.getD offset 0)

def tvbGetNtohs (tvb : Tvb) (offset : Nat) : Dissector Nat := do
  tvbEnsureBytesExist tvb offset 2
  pure (256 * (tvb.getD offset 0).toNat + (tvb.getD (offset + 1) 0).toNat)

/-- A C string: it ends at the first NUL. -/
def tvbGetEphemeralString (tvb : Tvb) (offset length : Nat) : Dissector String := do
  tvbEnsureBytesExist tvb offset length
  pure (String.ofList (((Layout.slice tvb offset length).takeWhile (· ≠ 0)).map fun b => Char.ofNat b.toNat))

/-- `tvb_new_subset(tvb, offset, -1, -1)`. -/
def tvbNewSubset (tvb : Tvb) (offset : Nat) : Dissector Tvb := do
  tvbEnsureBytesExist tvb offset 0
  pure (tvb.drop offset)

def protoTreeAddItem (tree : Tree) (hf : Hf) (tvb : Tvb) (offset length : Nat) : Dissector Unit := do
  tvbEnsureBytesExist tvb offset length
  .modify fun o => { o with items := o.items ++ [⟨⟨tree, hf⟩, offset, length⟩] }

def protoTreeAddText (tree : Tree) (tvb : Tvb) (offset length : Nat) (text : String) : Dissector Unit := do
  protoTreeAddItem tree .text tvb offset length
  .modify fun o => { o with texts := o.texts ++ [text] }

def colAddStr (c : Column) (s : String) : Dissector Unit :=
  .modify fun o => { o with col := Function.update o.col c s, changes := o.changes ++ [.add c s] }

def colAppendStr (c : Column) (s : String) : Dissector Unit :=
  .modify fun o => { o with col := Function.update o.col c (o.col c ++ s), changes := o.changes ++ [.append c s] }

def colSetFence : Dissector Unit := .modify fun o => { o with fence := true, changes := o.changes ++ [.setFence] }

def callDissector (tvb : Tvb) : Dissector Unit := .modify fun o => { o with eth := o.eth ++ [tvb] }

/-- `if(check_col(pinfo->cinfo, c))` -/
def ifCheckCol (env : Env) (c : Column) (m : Dissector Unit) : Dissector Unit := if env.checkCol c then m else pure ()

/-- `%02x` -/
def hex2 (b : UInt8) : String :=
  String.ofList [Nat.digitChar (b.toNat / 16), Nat.digitChar (b.toNat % 16)]

/-! ## `packet-awds.c` -/

variable (env : Env) (tvb : Tvb)

/-- The `for` loops of :453 and :463. The result is the offset behind the list. -/
def macLoop (tree : Tree) (hf : Hf) : Nat → Nat → Dissector Nat
  | 0, offset => pure offset
  | n + 1, offset => do
    protoTreeAddItem tree hf tvb offset 6
    macLoop tree hf n (offset + 6)

/-- "Decode ... relay list if it exists" (:449-457, :459-467). -/
def macList (tree : Tree) (lst : Hf) (sub : Tree) (hf : Hf) (cnt : UInt8) (offset : Nat) : Dissector Nat :=
  if cnt ≠ 0 then do
    protoTreeAddItem tree lst tvb offset (6 * cnt.toNat)
    macLoop tvb sub hf cnt.toNat offset
  else pure offset

def dissectAwdsBeacon (tree : Tree) (offset : Nat) : Dissector Unit := do
  let interval ← tvbGetNtohs tvb offset
  protoTreeAddItem tree .beaconInt tvb offset 2
  let offset := offset + 2
  let nmbrCnt ← tvbGetGuint8 tvb offset
  protoTreeAddItem tree .beaconNmprCnt tvb offset 1
  let offset := offset + 1
  let mbrCnt ← tvbGetGuint8 tvb offset
  protoTreeAddItem tree .beaconMprCnt tvb offset 1
  let offset := offset + 1
  ifCheckCol env .info do
    colAddStr .info s!"Beacon (int={interval}, nonmpr={nmbrCnt}, mpr={mbrCnt})"
  let offset ← macList tvb tree .beaconNmbrLst .beaconNmbrLst .beaconNmbrMacAddr nmbrCnt offset
  let _ ← macList tvb tree .beaconMbrLst .beaconMbrLst .beaconMbrMacAddr mbrCnt offset

/-- The `for` loop of :491. -/
def linkLoop : Nat → Nat → Dissector Nat
  | 0, offset => pure offset
  | n + 1, offset => do
    let a0 ← tvbGetGuint8 tvb offset
    let a1 ← tvbGetGuint8 tvb (offset + 1)
    let a2 ← tvbGetGuint8 tvb (offset + 2)
    let a3 ← tvbGetGuint8 tvb (offset + 3)
    let a4 ← tvbGetGuint8 tvb (offset + 4)
    let a5 ← tvbGetGuint8 tvb (offset + 5)
    let cost ← tvbGetNtohs tvb (offset + 6)
    protoTreeAddText .topoLinkLst tvb offset 8
      (String.intercalate ":" [hex2 a0, hex2 a1, hex2 a2, hex2 a3, hex2 a4, hex2 a5] ++ s!" - {cost}")
    protoTreeAddItem .topoLinkEntry .topoLinkMacAddr tvb offset 6
    protoTreeAddItem .topoLinkEntry .topoLinkCost tvb (offset + 6) 2
    linkLoop n (offset + 8)

/-- "Decode link list if it exists" (:487-505). -/
def linkList (tree : Tree) (cnt : UInt8) (offset : Nat) : Dissector Nat :=
  if cnt ≠ 0 then do
    protoTreeAddItem tree .topoLinkLst tvb offset (8 * cnt.toNat)
    linkLoop tvb cnt.toNat offset
  else pure offset

def dissectAwdsTopo (tree : Tree) (offset : Nat) : Dissector Unit := do
  protoTreeAddItem tree .topoValidity tvb offset 4
  let offset := offset + 4
  let linkCnt ← tvbGetGuint8 tvb offset
  protoTreeAddItem tree .topoLinkCnt tvb offset 1
  let offset := offset + 1
  let offset ← linkList tvb tree linkCnt offset
  let nameLen ← tvbGetGuint8 tvb offset
  protoTreeAddItem tree .topoNodeNameLen tvb offset 1
  let offset := offset + 1
  ifCheckCol env .info do
    let name ← tvbGetEphemeralString tvb offset (if nameLen > 32 then 32 else nameLen.toNat)
    colAppendStr .info (", Topology [Node name=\"" ++ name ++ "\"])")
  protoTreeAddItem tree .topoNodeName tvb offset nameLen.toNat

def dissectAwdsCrypto (tree : Tree) (offset : Nat) : Dissector Unit := do
  protoTreeAddItem tree .cryptoIv tvb offset 8
  let offset := offset + 8
  protoTreeAddItem tree .cryptoNonce tvb offset 8
  ifCheckCol env .info do
    colAppendStr .info ", Cryptographic)"

def dissectAwdsData (offset : Nat) : Dissector Unit := do
  ifCheckCol env .info do
    colAppendStr .info "), "
    colSetFence
  let next ← tvbNewSubset tvb offset
  if env.ethHandle then
    callDissector next

/-- What `dissect_awds_flood` and `dissect_awds_unicast` have in common: the TTL, the embedded type
and the `switch` (:573-595, :611-633). -/
def dissectAwdsEmbedded (hf : Hf) (name : String) (tree : Tree) (offset : Nat) : Dissector Unit := do
  let ttl ← tvbGetGuint8 tvb offset
  protoTreeAddItem tree hf tvb offset 1
  let offset := offset + 1
  ifCheckCol env .info do
    colAddStr .info s!"{name} (TTL={ttl}"
  let subtype ← tvbGetGuint8 tvb offset
  protoTreeAddItem tree .subtype tvb offset 1
  let offset := offset + 1
  if subtype = awdsTopo then dissectAwdsTopo env tvb .subtype offset
  else if subtype = awdsCrypto then dissectAwdsCrypto env tvb .subtype offset
  else if subtype = awdsCapData then dissectAwdsData env tvb offset
  else pure ()

def dissectAwdsFlood (tree : Tree) (offset : Nat) : Dissector Unit := do
  protoTreeAddItem tree .floodLasthopMacAddr tvb offset 6
  let offset := offset + 6
  dissectAwdsEmbedded env tvb .floodTtl "Flood" tree offset

def dissectAwdsUnicast (tree : Tree) (offset : Nat) : Dissector Unit := do
  protoTreeAddItem tree .unicastDestMacAddr tvb offset 6
  let offset := offset + 6
  protoTreeAddItem tree .unicastNexthopMacAddr tvb offset 6
  let offset := offset + 6
  dissectAwdsEmbedded env tvb .unicastTtl "Unicast" tree offset

/-- The `switch` of :682. -/
def dissectPacket (type : UInt8) (offset : Nat) : Dissector Unit :=
  if type = awdsBeacon then dissectAwdsBeacon env tvb .awds offset
  else if type = awdsFlood then dissectAwdsFlood env tvb .awds offset
  else if type = awdsUnicast then dissectAwdsUnicast env tvb .awds offset
  else pure ()

/-- `tree` says whether the tree is not null. -/
def dissectAwds (tree : Bool) : Dissector Unit :=
  if !tree then pure ()
  else do
    let offset := 0
    let type := (← tvbGetGuint8 tvb offset) &&& 0x03
    let _flags := (← tvbGetGuint8 tvb offset) >>> 2
    protoTreeAddItem .root .protoAwds tvb offset tvb.length
    protoTreeAddItem .awds .type tvb offset 1
    protoTreeAddItem .awds .flags tvb offset 1
    protoTreeAddItem .flags .flag0 tvb offset 1
    protoTreeAddItem .flags .flag1 tvb offset 1
    protoTreeAddItem .flags .flag2 tvb offset 1
    protoTreeAddItem .flags .flag3 tvb offset 1
    protoTreeAddItem .flags .flag4 tvb offset 1
    protoTreeAddItem .flags .flag5 tvb offset 1
    let offset := offset + 1
    protoTreeAddItem .awds .srcMacAddr tvb offset 6
    let offset := offset + 6
    protoTreeAddItem .awds .seqNo tvb offset 2
    let offset := offset + 2
    dissectPacket env tvb type offset
    ifCheckCol env .protocol do
      colAddStr .protocol "AWDS"

end Wireshark
