import Awds.Wireshark.Dissector

/-!
# The packet format

`awdsPacket` says what an AWDS packet is made of, without offsets. `dissectAwds_follows`: the
dissector adds the items of the format, in order and at their places, throws at the first that does
not fit, and hands the rest of a data packet to the Ethernet dissector.
-/

namespace Wireshark

open Layout (Item slice)

/-- The fields with bytes of their own. The byte that the type and the flags share is counted once,
as the last of them; the protocol, the headers of lists and the entry texts lie over other fields. -/
def Hf.value : Hf → Bool
  | .protoAwds | .type | .flags | .flag0 | .flag1 | .flag2 | .flag3 | .flag4 => false
  | .beaconNmbrLst | .beaconMbrLst | .topoLinkLst | .text => false
  | _ => true

def Label.value (l : Label) : Bool := l.hf.value

/-- A format that ends with `true` leaves the rest of the packet to the Ethernet dissector. -/
abbrev Format := Layout.Format UInt8 Label Bool

def byte (l : Label) (next : UInt8 → Format) : Format := .item l 1 fun v => next (v.getD 0 0)

def macs (l : Label) : Nat → Format → Format
  | 0, next => next
  | n + 1, next => .item l 6 fun _ => macs l n next

/-- A list has a header over all of it, and is left out when it is empty. -/
def macLst (lst mac : Label) (cnt : UInt8) (next : Format) : Format :=
  if cnt ≠ 0 then .item lst (6 * cnt.toNat) fun _ => macs mac cnt.toNat next else next

def links : Nat → Format → Format
  | 0, next => next
  | n + 1, next => .item ⟨.topoLinkLst, .text⟩ 8 fun _ => .item ⟨.topoLinkEntry, .topoLinkMacAddr⟩ 6 fun _ =>
    .item ⟨.topoLinkEntry, .topoLinkCost⟩ 2 fun _ => links n next

def linkLst (lst : Label) (cnt : UInt8) (next : Format) : Format :=
  if cnt ≠ 0 then .item lst (8 * cnt.toNat) fun _ => links cnt.toNat next else next

def beacon (t : Tree) : Format :=
  .item ⟨t, .beaconInt⟩ 2 fun _ => byte ⟨t, .beaconNmprCnt⟩ fun nmbr => byte ⟨t, .beaconMprCnt⟩ fun mbr =>
    macLst ⟨t, .beaconNmbrLst⟩ ⟨.beaconNmbrLst, .beaconNmbrMacAddr⟩ nmbr
      (macLst ⟨t, .beaconMbrLst⟩ ⟨.beaconMbrLst, .beaconMbrMacAddr⟩ mbr (.done false))

def nodeName (t : Tree) : Format :=
  byte ⟨t, .topoNodeNameLen⟩ fun len => .item ⟨t, .topoNodeName⟩ len.toNat fun _ => .done false

def topo (t : Tree) : Format :=
  .item ⟨t, .topoValidity⟩ 4 fun _ => byte ⟨t, .topoLinkCnt⟩ fun cnt => linkLst ⟨t, .topoLinkLst⟩ cnt (nodeName t)

def crypto (t : Tree) : Format := .item ⟨t, .cryptoIv⟩ 8 fun _ => .item ⟨t, .cryptoNonce⟩ 8 fun _ => .done false

def embedded (hf : Hf) (t : Tree) : Format :=
  byte ⟨t, hf⟩ fun _ => byte ⟨t, .subtype⟩ fun subtype =>
    if subtype = awdsTopo then topo .subtype
    else if subtype = awdsCrypto then crypto .subtype
    else .done (subtype = awdsCapData)

def flood (t : Tree) : Format := .item ⟨t, .floodLasthopMacAddr⟩ 6 fun _ => embedded .floodTtl t

def unicast (t : Tree) : Format :=
  .item ⟨t, .unicastDestMacAddr⟩ 6 fun _ => .item ⟨t, .unicastNexthopMacAddr⟩ 6 fun _ => embedded .unicastTtl t

def packet (type : UInt8) : Format :=
  if type = awdsBeacon then beacon .awds
  else if type = awdsFlood then flood .awds
  else if type = awdsUnicast then unicast .awds
  else .done false

/-- The items over one byte, the last of which counts. -/
def bits (ls : List Label) (next : Format) : Format := ls.foldr (fun l f => .item l 1 fun _ => f) next

def awdsPacket : Format :=
  byte ⟨.awds, .type⟩ fun type =>
    bits [⟨.awds, .flags⟩, ⟨.flags, .flag0⟩, ⟨.flags, .flag1⟩, ⟨.flags, .flag2⟩, ⟨.flags, .flag3⟩, ⟨.flags, .flag4⟩,
      ⟨.flags, .flag5⟩]
      (.item ⟨.awds, .srcMacAddr⟩ 6 fun _ => .item ⟨.awds, .seqNo⟩ 2 fun _ => packet (type &&& 0x03))

/-! ## The dissector follows the format -/

variable {env : Env} {tvb : Tvb} {α : Type}

theorem bind_apply {m : Dissector α} {β : Type} (k : α → Dissector β) (o : Out) :
    (m >>= k) o = match m o with
      | (o', some a) => k a o'
      | (o', none) => (o', none) := rfl

theorem pure_apply (a : α) (o : Out) : (pure a : Dissector α) o = (o, some a) := rfl

theorem bind_assoc' {β γ : Type} (m : Dissector α) (k : α → Dissector β) (k' : β → Dissector γ) :
    (m >>= k) >>= k' = m >>= fun a => k a >>= k' := by
  funext o
  simp only [bind_apply]
  rcases m o with ⟨o', _ | a⟩ <;> rfl

/-- What the embedded dissector gets. -/
def handed (env : Env) (tvb : Tvb) : Option (Nat × Bool) → List Tvb
  | some (e, true) => if env.ethHandle then [tvb.drop e] else []
  | _ => []

/-- `m`, at `offset`, dissects what `f` describes. -/
structure Follows (env : Env) (tvb : Tvb) (offset : Nat) (m : Dissector Unit) (f : Format) : Prop where
  items : ∀ o, (m o).1.items = o.items ++ (f.run Label.value tvb offset).1
  throws : ∀ o, (m o).2.isSome = (f.run Label.value tvb offset).2.isSome
  eth : ∀ o, (m o).1.eth = o.eth ++ handed env tvb (f.run Label.value tvb offset).2

/-- `m` fills columns only. -/
structure Silent (m : Dissector Unit) : Prop where
  items : ∀ o, (m o).1.items = o.items
  throws : ∀ o, (m o).2 = some ()
  eth : ∀ o, (m o).1.eth = o.eth

/-- `m` reads `n` bytes at `offset`, which are `a`, and fills columns only. -/
structure Reads (tvb : Tvb) (offset n : Nat) (m : Dissector α) (a : α) : Prop where
  ok : offset + n ≤ tvb.length → ∀ o, (m o).1.items = o.items ∧ (m o).1.eth = o.eth ∧ (m o).2 = some a
  err : ¬offset + n ≤ tvb.length → ∀ o, m o = (o, none)

theorem Silent.pure : Silent (Pure.pure ()) := ⟨fun _ => rfl, fun _ => rfl, fun _ => rfl⟩

theorem Silent.ifCheckCol {c : Column} {m : Dissector Unit} (h : Silent m) : Silent (ifCheckCol env c m) := by
  unfold Wireshark.ifCheckCol
  split
  · exact h
  · exact Silent.pure

theorem silent_colAddStr (c : Column) (s : String) : Silent (colAddStr c s) := ⟨fun _ => rfl, fun _ => rfl, fun _ => rfl⟩
theorem silent_colAppendStr (c : Column) (s : String) : Silent (colAppendStr c s) :=
  ⟨fun _ => rfl, fun _ => rfl, fun _ => rfl⟩

theorem silent_texts (text : String) : Silent (.modify fun o => { o with texts := o.texts ++ [text] }) :=
  ⟨fun _ => rfl, fun _ => rfl, fun _ => rfl⟩

theorem reads_guint8 (offset : Nat) : Reads tvb offset 1 (tvbGetGuint8 tvb offset) (tvb.getD offset 0) := by
  constructor
  · intro h o
    simp only [tvbGetGuint8, tvbEnsureBytesExist, bind_apply, if_pos h]
    exact ⟨rfl, rfl, rfl⟩
  · intro h o
    simp only [tvbGetGuint8, tvbEnsureBytesExist, bind_apply, if_neg h]

theorem reads_ntohs (offset : Nat) : Reads tvb offset 2 (tvbGetNtohs tvb offset)
    (256 * (tvb.getD offset 0).toNat + (tvb.getD (offset + 1) 0).toNat) := by
  constructor
  · intro h o
    simp only [tvbGetNtohs, tvbEnsureBytesExist, bind_apply, if_pos h]
    exact ⟨rfl, rfl, rfl⟩
  · intro h o
    simp only [tvbGetNtohs, tvbEnsureBytesExist, bind_apply, if_neg h]

theorem reads_ephemeralString (offset n : Nat) : Reads tvb offset n (tvbGetEphemeralString tvb offset n)
    (String.ofList (((slice tvb offset n).takeWhile (· ≠ 0)).map fun b => Char.ofNat b.toNat)) := by
  constructor
  · intro h o
    simp only [tvbGetEphemeralString, tvbEnsureBytesExist, bind_apply, if_pos h]
    exact ⟨rfl, rfl, rfl⟩
  · intro h o
    simp only [tvbGetEphemeralString, tvbEnsureBytesExist, bind_apply, if_neg h]

theorem Follows.done {m : Dissector Unit} {offset : Nat} (h : Silent m) : Follows env tvb offset m (.done false) :=
  ⟨fun o => by rw [h.items]; exact (List.append_nil _).symm, fun o => by rw [h.throws]; rfl,
    fun o => by rw [h.eth]; exact (List.append_nil _).symm⟩

theorem Follows.silent {m k : Dissector Unit} {f : Format} {offset : Nat} (h : Silent m)
    (hk : Follows env tvb offset k f) : Follows env tvb offset (m >>= fun _ => k) f := by
  have hrun : ∀ o, (m >>= fun _ => k) o = k (m o).1 := by
    intro o
    have := h.throws o
    rw [bind_apply]
    rcases hm : m o with ⟨o', r⟩
    rw [hm] at this
    cases this
    rfl
  constructor
  · intro o; rw [hrun, hk.items, h.items]
  · intro o; rw [hrun, hk.throws]
  · intro o; rw [hrun, hk.eth, h.eth]

/-- A read within the next item. -/
theorem Follows.read {m : Dissector α} {k : α → Dissector Unit} {a : α} {l : Label} {len offset d n : Nat}
    {next : List UInt8 → Format} (h : Reads tvb (offset + d) n m a) (hn : d + n ≤ len)
    (hk : Follows env tvb offset (k a) (.item l len next)) : Follows env tvb offset (m >>= k) (.item l len next) := by
  by_cases hle : offset + d + n ≤ tvb.length
  · have hrun : ∀ o, (m >>= k) o = k a (m o).1 := by
      intro o
      obtain ⟨-, -, hr⟩ := h.ok hle o
      rw [bind_apply]
      rcases hm : m o with ⟨o', r⟩
      rw [hm] at hr
      cases hr
      rfl
    constructor
    · intro o; rw [hrun, hk.items, (h.ok hle o).1]
    · intro o; rw [hrun, hk.throws]
    · intro o; rw [hrun, hk.eth, (h.ok hle o).2.1]
  · have hrun : ∀ o, (m >>= k) o = (o, none) := by
      intro o
      rw [bind_apply, h.err hle]
    have hshort : ¬offset + len ≤ tvb.length := by omega
    constructor
    · intro o; rw [hrun, Layout.run_item_of_lt hshort]; exact (List.append_nil _).symm
    · intro o; rw [hrun, Layout.run_item_of_lt hshort]; rfl
    · intro o; rw [hrun, Layout.run_item_of_lt hshort]; exact (List.append_nil _).symm

theorem protoTreeAddItem_of_le {t : Tree} {hf : Hf} {offset len : Nat} (h : offset + len ≤ tvb.length) (o : Out) :
    protoTreeAddItem t hf tvb offset len o = ({ o with items := o.items ++ [⟨⟨t, hf⟩, offset, len⟩] }, some ()) := by
  simp only [protoTreeAddItem, tvbEnsureBytesExist, bind_apply, if_pos h]
  rfl

theorem protoTreeAddItem_of_lt {t : Tree} {hf : Hf} {offset len : Nat} (h : ¬offset + len ≤ tvb.length) (o : Out) :
    protoTreeAddItem t hf tvb offset len o = (o, none) := by
  simp only [protoTreeAddItem, tvbEnsureBytesExist, bind_apply, if_neg h]

/-- The next item of the format. What comes behind it may use that it fits. -/
theorem Follows.add_of_le {t : Tree} {hf : Hf} {len offset : Nat} {k : Dissector Unit} {next : List UInt8 → Format}
    (hk : offset + len ≤ tvb.length →
      Follows env tvb (if hf.value then offset + len else offset) k (next (slice tvb offset len))) :
    Follows env tvb offset (protoTreeAddItem t hf tvb offset len >>= fun _ => k) (.item ⟨t, hf⟩ len next) := by
  by_cases h : offset + len ≤ tvb.length
  · have hrun : ∀ o, (protoTreeAddItem t hf tvb offset len >>= fun _ => k) o =
        k { o with items := o.items ++ [⟨⟨t, hf⟩, offset, len⟩] } := by
      intro o
      rw [bind_apply, protoTreeAddItem_of_le h]
    have hk : Follows env tvb (if Label.value ⟨t, hf⟩ then offset + len else offset) k (next (slice tvb offset len)) :=
      hk h
    constructor
    · intro o
      rw [hrun, hk.items, Layout.run_item_of_le h]
      simp only [List.append_assoc, List.singleton_append]
    · intro o; rw [hrun, hk.throws, Layout.run_item_of_le h]
    · intro o; rw [hrun, hk.eth, Layout.run_item_of_le h]
  · have hrun : ∀ o, (protoTreeAddItem t hf tvb offset len >>= fun _ => k) o = (o, none) := by
      intro o
      rw [bind_apply, protoTreeAddItem_of_lt h]
    constructor
    · intro o; rw [hrun, Layout.run_item_of_lt h]; exact (List.append_nil _).symm
    · intro o; rw [hrun, Layout.run_item_of_lt h]; rfl
    · intro o; rw [hrun, Layout.run_item_of_lt h]; exact (List.append_nil _).symm

theorem Follows.add {t : Tree} {hf : Hf} {len offset : Nat} {k : Dissector Unit} {next : List UInt8 → Format}
    (hk : Follows env tvb (if hf.value then offset + len else offset) k (next (slice tvb offset len))) :
    Follows env tvb offset (protoTreeAddItem t hf tvb offset len >>= fun _ => k) (.item ⟨t, hf⟩ len next) :=
  Follows.add_of_le fun _ => hk

/-- The same for the last item. -/
theorem Follows.last {t : Tree} {hf : Hf} {len offset : Nat} :
    Follows env tvb offset (protoTreeAddItem t hf tvb offset len) (.item ⟨t, hf⟩ len fun _ => .done false) := by
  have hadd : Follows env tvb offset (protoTreeAddItem t hf tvb offset len >>= fun _ => pure ())
      (.item ⟨t, hf⟩ len fun _ => .done false) := Follows.add (Follows.done Silent.pure)
  have heq : (protoTreeAddItem t hf tvb offset len >>= fun _ => pure ()) = protoTreeAddItem t hf tvb offset len := by
    funext o
    rw [bind_apply]
    rcases protoTreeAddItem t hf tvb offset len o with ⟨o', _ | ⟨⟩⟩ <;> rfl
  rwa [heq] at hadd

theorem slice_one (offset : Nat) : (slice tvb offset 1).getD 0 0 = tvb.getD offset 0 := by
  simp [slice, List.getD_eq_getElem?_getD]

/-- A byte is read and then added as an item. -/
theorem Follows.byte {t : Tree} {hf : Hf} {offset : Nat} {k : UInt8 → Dissector Unit} {next : UInt8 → Format}
    (hv : hf.value = true) (hk : ∀ x, offset + 1 ≤ tvb.length → Follows env tvb (offset + 1) (k x) (next x)) :
    Follows env tvb offset (tvbGetGuint8 tvb offset >>= fun x => protoTreeAddItem t hf tvb offset 1 >>= fun _ => k x)
      (byte ⟨t, hf⟩ next) := by
  refine Follows.read (d := 0) (reads_guint8 offset) (le_refl _) (Follows.add_of_le fun h => ?_)
  rw [if_pos hv, slice_one]
  exact hk _ h

theorem Follows.pure_bind {a : α} {k : α → Dissector Unit} {f : Format} {offset : Nat}
    (h : Follows env tvb offset (k a) f) : Follows env tvb offset ((pure a : Dissector α) >>= k) f := h

/-! ### Lists -/

theorem follows_macLoop {t : Tree} {hf : Hf} (hv : hf.value = true) {k : Nat → Dissector Unit} {f : Format} :
    ∀ (n offset : Nat), Follows env tvb (offset + 6 * n) (k (offset + 6 * n)) f →
      Follows env tvb offset (macLoop tvb t hf n offset >>= k) (macs ⟨t, hf⟩ n f)
  | 0, offset, hk => hk
  | n + 1, offset, hk => by
    have hnext : offset + 6 + 6 * n = offset + 6 * (n + 1) := by omega
    rw [macLoop, bind_assoc']
    refine Follows.add ?_
    rw [if_pos hv]
    refine follows_macLoop hv n (offset + 6) ?_
    rw [hnext]
    exact hk

theorem follows_macList {t sub : Tree} {lst hf : Hf} (hlst : lst.value = false) (hv : hf.value = true) {cnt : UInt8}
    {offset : Nat} {k : Nat → Dissector Unit} {f : Format}
    (hk : Follows env tvb (offset + 6 * cnt.toNat) (k (offset + 6 * cnt.toNat)) f) :
    Follows env tvb offset (macList tvb t lst sub hf cnt offset >>= k) (macLst ⟨t, lst⟩ ⟨sub, hf⟩ cnt f) := by
  unfold macList macLst
  by_cases hc : cnt = 0
  · subst hc
    exact hk
  · rw [if_pos hc, if_pos hc, bind_assoc']
    refine Follows.add ?_
    rw [if_neg (by simp [hlst])]
    exact follows_macLoop hv cnt.toNat offset hk

theorem follows_linkLoop {k : Nat → Dissector Unit} {f : Format} :
    ∀ (n offset : Nat), Follows env tvb (offset + 8 * n) (k (offset + 8 * n)) f →
      Follows env tvb offset (linkLoop tvb n offset >>= k) (links n f)
  | 0, offset, hk => hk
  | n + 1, offset, hk => by
    have hnext : offset + 6 + 2 + 8 * n = offset + 8 * (n + 1) := by omega
    simp only [linkLoop, protoTreeAddText, bind_assoc']
    refine Follows.read (d := 0) (reads_guint8 offset) (by omega) ?_
    refine Follows.read (reads_guint8 (offset + 1)) (by omega) ?_
    refine Follows.read (reads_guint8 (offset + 2)) (by omega) ?_
    refine Follows.read (reads_guint8 (offset + 3)) (by omega) ?_
    refine Follows.read (reads_guint8 (offset + 4)) (by omega) ?_
    refine Follows.read (reads_guint8 (offset + 5)) (by omega) ?_
    refine Follows.read (reads_ntohs (offset + 6)) (by omega) ?_
    refine Follows.add (Follows.silent (silent_texts _) (Follows.add (Follows.add ?_)))
    refine follows_linkLoop n (offset + 8) ?_
    rw [← hnext] at hk
    exact hk

theorem follows_linkList {t : Tree} {cnt : UInt8} {offset : Nat} {k : Nat → Dissector Unit} {f : Format}
    (hk : Follows env tvb (offset + 8 * cnt.toNat) (k (offset + 8 * cnt.toNat)) f) :
    Follows env tvb offset (linkList tvb t cnt offset >>= k) (linkLst ⟨t, .topoLinkLst⟩ cnt f) := by
  unfold linkList linkLst
  by_cases hc : cnt = 0
  · subst hc
    exact hk
  · rw [if_pos hc, if_pos hc, bind_assoc']
    exact Follows.add (follows_linkLoop cnt.toNat offset hk)

/-! ### The dissect functions -/

theorem follows_beacon {t : Tree} {offset : Nat} :
    Follows env tvb offset (dissectAwdsBeacon env tvb t offset) (beacon t) := by
  refine Follows.read (d := 0) (reads_ntohs offset) (le_refl _) (Follows.add ?_)
  refine Follows.byte rfl fun nmbr _ => Follows.byte rfl fun mbr _ => ?_
  refine Follows.silent (silent_colAddStr _ _).ifCheckCol ?_
  refine follows_macList rfl rfl (follows_macList rfl rfl ?_)
  exact Follows.done Silent.pure

theorem follows_crypto {t : Tree} {offset : Nat} :
    Follows env tvb offset (dissectAwdsCrypto env tvb t offset) (crypto t) := by
  refine Follows.add (Follows.add ?_)
  exact Follows.done (silent_colAppendStr _ _).ifCheckCol

/-- The column shows a part of the name that is added next. -/
theorem follows_name {t : Tree} {offset : Nat} (len : UInt8) :
    Follows env tvb offset
      ((ifCheckCol env .info do
        let name ← tvbGetEphemeralString tvb offset (if len > 32 then 32 else len.toNat)
        colAppendStr .info (", Topology [Node name=\"" ++ name ++ "\"])")) >>=
        fun _ => protoTreeAddItem t .topoNodeName tvb offset len.toNat)
      (.item ⟨t, .topoNodeName⟩ len.toNat fun _ => .done false) := by
  unfold ifCheckCol
  by_cases hc : env.checkCol .info = true
  · have hshown : (if len > 32 then 32 else len.toNat) ≤ len.toNat := by
      split
      · rename_i hlt
        exact (UInt8.lt_iff_toNat_lt.1 hlt).le
      · exact le_refl _
    rw [if_pos hc, bind_assoc']
    refine Follows.read (d := 0) (reads_ephemeralString _ _) (by omega) ?_
    exact Follows.silent (silent_colAppendStr _ _) Follows.last
  · rw [if_neg hc]
    exact Follows.pure_bind Follows.last

theorem follows_topo {t : Tree} {offset : Nat} :
    Follows env tvb offset (dissectAwdsTopo env tvb t offset) (topo t) := by
  refine Follows.add (Follows.byte rfl fun cnt _ => follows_linkList (Follows.byte rfl fun len _ => ?_))
  exact follows_name len

theorem follows_data {offset : Nat} (h : offset ≤ tvb.length) :
    Follows env tvb offset (dissectAwdsData env tvb offset) (.done true) := by
  have hcol : Silent (ifCheckCol env .info do
      colAppendStr .info "), "
      colSetFence) := Silent.ifCheckCol ⟨fun _ => rfl, fun _ => rfl, fun _ => rfl⟩
  refine Follows.silent hcol ?_
  have hnext : ∀ (k : Tvb → Dissector Unit) o, (tvbNewSubset tvb offset >>= k) o = k (tvb.drop offset) o := by
    intro k o
    have hle : offset + 0 ≤ tvb.length := h
    simp only [tvbNewSubset, tvbEnsureBytesExist, bind_apply, if_pos hle]
    rfl
  have hrun : (Layout.Format.run Label.value tvb (.done true : Format) offset) = ([], some (offset, true)) := rfl
  cases he : env.ethHandle with
  | true =>
    constructor
    · intro o; rw [hnext, hrun]; exact (List.append_nil _).symm
    · intro o; rw [hnext, hrun]; rfl
    · intro o; rw [hnext, hrun]; simp [handed, he, callDissector, Dissector.modify]
  | false =>
    constructor
    · intro o; rw [hnext, hrun]; exact (List.append_nil _).symm
    · intro o; rw [hnext, hrun]; rfl
    · intro o; rw [hnext, hrun]; simp [handed, he, pure_apply]

theorem follows_embedded {hf : Hf} (hv : hf.value = true) {name : String} {t : Tree} {offset : Nat} :
    Follows env tvb offset (dissectAwdsEmbedded env tvb hf name t offset) (embedded hf t) := by
  refine Follows.byte hv fun ttl _ => Follows.silent (silent_colAddStr _ _).ifCheckCol ?_
  refine Follows.byte rfl fun subtype h => ?_
  by_cases h1 : subtype = awdsTopo
  · simp only [if_pos h1]
    exact follows_topo
  · by_cases h2 : subtype = awdsCrypto
    · simp only [if_neg h1, if_pos h2]
      exact follows_crypto
    · by_cases h3 : subtype = awdsCapData
      · simp only [if_neg h1, if_neg h2, decide_eq_true h3]
        rw [if_pos h3]
        exact follows_data h
      · simp only [if_neg h1, if_neg h2, decide_eq_false h3]
        rw [if_neg h3]
        exact Follows.done Silent.pure

theorem follows_flood {t : Tree} {offset : Nat} :
    Follows env tvb offset (dissectAwdsFlood env tvb t offset) (flood t) :=
  Follows.add (follows_embedded rfl)

theorem follows_unicast {t : Tree} {offset : Nat} :
    Follows env tvb offset (dissectAwdsUnicast env tvb t offset) (unicast t) :=
  Follows.add (Follows.add (follows_embedded rfl))

theorem follows_packet (type : UInt8) {offset : Nat} :
    Follows env tvb offset (dissectPacket env tvb type offset) (packet type) := by
  unfold dissectPacket packet
  by_cases h1 : type = awdsBeacon
  · rw [if_pos h1, if_pos h1]
    exact follows_beacon
  · by_cases h2 : type = awdsFlood
    · rw [if_neg h1, if_neg h1, if_pos h2, if_pos h2]
      exact follows_flood
    · by_cases h3 : type = awdsUnicast
      · rw [if_neg h1, if_neg h1, if_neg h2, if_neg h2, if_pos h3, if_pos h3]
        exact follows_unicast
      · rw [if_neg h1, if_neg h1, if_neg h2, if_neg h2, if_neg h3, if_neg h3]
        exact Follows.done Silent.pure

theorem Follows.then_silent {m k : Dissector Unit} {f : Format} {offset : Nat} (hm : Follows env tvb offset m f)
    (h : Silent k) : Follows env tvb offset (m >>= fun _ => k) f := by
  have hrun : ∀ o, ((m >>= fun _ => k) o).1.items = (m o).1.items ∧
      ((m >>= fun _ => k) o).2.isSome = (m o).2.isSome ∧ ((m >>= fun _ => k) o).1.eth = (m o).1.eth := by
    intro o
    rw [bind_apply]
    rcases m o with ⟨o', _ | ⟨⟩⟩
    · exact ⟨rfl, rfl, rfl⟩
    · exact ⟨h.items o', by rw [h.throws o'], h.eth o'⟩
  constructor
  · intro o; rw [(hrun o).1, hm.items]
  · intro o; rw [(hrun o).2.1, hm.throws]
  · intro o; rw [(hrun o).2.2, hm.eth]

/-- What `dissect_awds` does behind the protocol item. -/
def dissectFields (env : Env) (tvb : Tvb) : Dissector Unit := do
  protoTreeAddItem .awds .type tvb 0 1
  protoTreeAddItem .awds .flags tvb 0 1
  protoTreeAddItem .flags .flag0 tvb 0 1
  protoTreeAddItem .flags .flag1 tvb 0 1
  protoTreeAddItem .flags .flag2 tvb 0 1
  protoTreeAddItem .flags .flag3 tvb 0 1
  protoTreeAddItem .flags .flag4 tvb 0 1
  protoTreeAddItem .flags .flag5 tvb 0 1
  protoTreeAddItem .awds .srcMacAddr tvb 1 6
  protoTreeAddItem .awds .seqNo tvb 7 2
  dissectPacket env tvb (tvb.getD 0 0 &&& 0x03) 9
  ifCheckCol env .protocol (colAddStr .protocol "AWDS")

theorem follows_fields : Follows env tvb 0 (dissectFields env tvb) awdsPacket := by
  refine Follows.add ?_
  rw [slice_one]
  refine Follows.add (Follows.add (Follows.add (Follows.add (Follows.add (Follows.add (Follows.add ?_))))))
  refine Follows.add (Follows.add ?_)
  exact (follows_packet _).then_silent (silent_colAddStr _ _).ifCheckCol

/-- The empty buffer ends at the type byte. -/
theorem dissectAwds_nil (o : Out) : dissectAwds env [] true o = (o, none) := rfl

theorem dissectAwds_of_pos (h : 0 < tvb.length) (o : Out) :
    dissectAwds env tvb true o =
      dissectFields env tvb { o with items := o.items ++ [⟨⟨.root, .protoAwds⟩, 0, tvb.length⟩] } := by
  have hread : tvbGetGuint8 tvb 0 = pure (tvb.getD 0 0) := by
    funext o
    simp only [tvbGetGuint8, tvbEnsureBytesExist, bind_apply]
    rw [if_pos (by omega)]
  have hproto : ∀ k : Dissector Unit, (protoTreeAddItem .root .protoAwds tvb 0 tvb.length >>= fun _ => k) o =
      k { o with items := o.items ++ [⟨⟨.root, .protoAwds⟩, 0, tvb.length⟩] } := by
    intro k
    rw [bind_apply, protoTreeAddItem_of_le (by omega)]
  show ((tvbGetGuint8 tvb 0 >>= fun type => tvbGetGuint8 tvb 0 >>= fun _ =>
    protoTreeAddItem .root .protoAwds tvb 0 tvb.length >>= fun _ => _) : Dissector Unit) o = _
  rw [hread]
  exact hproto _

end Wireshark
