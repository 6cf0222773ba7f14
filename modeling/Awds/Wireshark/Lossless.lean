import Awds.Wireshark.Format

/-!
# Dissection is lossless

What the format says about itself, and with it the dissector: the value-carrying fields cover the
consumed bytes without a gap, a list has as many entries as its count byte says, the Ethernet
dissector gets the rest, and a truncated packet is dissected up to the first field or list that does
not fit (`dissection_lossless`).
-/

namespace Wireshark

open Layout (Item Contiguous total slice)

/-- The items in question: all but the protocol item. -/
def counted (items : List (Item Label)) : List (Item Label) := items.filter (·.label.hf ≠ .protoAwds)

/-- The items with bytes of their own. -/
def fields (items : List (Item Label)) : List (Item Label) := items.filter (·.label.value)

/-- The number of items under a field. -/
def entries (hf : Hf) (items : List (Item Label)) : Nat := items.countP (·.label.hf == hf)

def Hf.bit (hf : Hf) : Bool := hf ∈ [.type, .flags, .flag0, .flag1, .flag2, .flag3, .flag4, .flag5]

/-- A list has as many entries under `ent` as its count byte, the field `cnt`, says; or it did not fit,
and has none. -/
def Counts (tvb : Tvb) (cnt ent : Hf) (items : List (Item Label)) (complete : Bool) : Prop :=
  ∀ it ∈ items, it.label.hf = cnt →
    entries ent items = (tvb.getD it.start 0).toNat ∨ complete = false ∧ entries ent items = 0

/-- Where the data of a packet begin: behind the subtype, which stands behind the addresses and the TTL that belong to
the type. -/
def dataFrom (tvb : Tvb) : Option Nat :=
  if tvb.getD 0 0 &&& 0x03 = awdsFlood ∧ tvb[16]? = some awdsCapData then some 17
  else if tvb.getD 0 0 &&& 0x03 = awdsUnicast ∧ tvb[22]? = some awdsCapData then some 23
  else none

variable {env : Env} {tvb : Tvb}

abbrev run (f : Format) (tvb : Tvb) (off : Nat) : List (Item Label) × Option (Nat × Bool) := f.run Label.value tvb off

/-! ## What a format mentions -/

section
variable {P : Label → Prop} {Q : Bool → Prop} {next : Format}

@[simp] theorem all_macs {l : Label} (hl : P l) : ∀ n, (macs l n next).All P Q ↔ next.All P Q
  | 0 => Iff.rfl
  | n + 1 => by
    simp only [macs, Layout.Format.All, hl, true_and, all_macs hl n]
    exact ⟨fun h => h [], fun h _ => h⟩

@[simp] theorem all_macLst {lst mac : Label} (hl : P lst) (hm : P mac) (cnt : UInt8) :
    (macLst lst mac cnt next).All P Q ↔ next.All P Q := by
  unfold macLst
  split
  · simp only [Layout.Format.All, hl, true_and, all_macs hm]
    exact ⟨fun h => h [], fun h _ => h⟩
  · exact Iff.rfl

@[simp] theorem all_links (ht : P ⟨.topoLinkLst, .text⟩) (hm : P ⟨.topoLinkEntry, .topoLinkMacAddr⟩)
    (hc : P ⟨.topoLinkEntry, .topoLinkCost⟩) : ∀ n, (links n next).All P Q ↔ next.All P Q
  | 0 => Iff.rfl
  | n + 1 => by
    simp only [links, Layout.Format.All, ht, hm, hc, true_and, all_links ht hm hc n]
    exact ⟨fun h => h [] [] [], fun h _ _ _ => h⟩

@[simp] theorem all_linkLst {lst : Label} (hl : P lst) (ht : P ⟨.topoLinkLst, .text⟩)
    (hm : P ⟨.topoLinkEntry, .topoLinkMacAddr⟩) (hc : P ⟨.topoLinkEntry, .topoLinkCost⟩) (cnt : UInt8) :
    (linkLst lst cnt next).All P Q ↔ next.All P Q := by
  unfold linkLst
  split
  · simp only [Layout.Format.All, hl, true_and, all_links ht hm hc]
    exact ⟨fun h => h [], fun h _ => h⟩
  · exact Iff.rfl

@[simp] theorem all_ite {c : Prop} [Decidable c] {f g : Format} :
    (if c then f else g).All P Q ↔ if c then f.All P Q else g.All P Q := by
  split
  · exact Iff.rfl
  · exact Iff.rfl

end

/-- The format does not mention the field. -/
abbrev Free (q : Hf) (f : Format) : Prop := f.All (·.hf ≠ q) fun _ => True

theorem Free.entries {q : Hf} {f : Format} (h : Free q f) (off : Nat) : entries q (run f tvb off).1 = 0 := by
  refine List.countP_eq_zero.2 fun it hit => ?_
  simpa using (Layout.run_all tvb h off).1 it hit

/-- A packet has no field of another packet type, nor a second one of those with a count. -/
theorem free_flood {q : Hf} (hq : q ∈ [.protoAwds, .beaconNmprCnt, .beaconMprCnt]) (t : Tree) :
    Free q (flood t) ∧ Free q (unicast t) := by
  simp only [List.mem_cons, List.not_mem_nil, or_false] at hq
  rcases hq with rfl | rfl | rfl <;>
    simp [flood, unicast, embedded, topo, crypto, nodeName, byte, Layout.Format.All]

theorem free_beacon {q : Hf} (hq : q ∈ [.protoAwds, .topoLinkCnt, .subtype]) (t : Tree) :
    Free q (beacon t) := by
  simp only [List.mem_cons, List.not_mem_nil, or_false] at hq
  rcases hq with rfl | rfl | rfl <;> simp [beacon, byte, Layout.Format.All]

theorem free_proto : Free .protoAwds awdsPacket := by
  have hf := free_flood (q := .protoAwds) (by simp) .awds
  have hb := free_beacon (q := .protoAwds) (by simp) .awds
  simp [awdsPacket, byte, bits, packet, Layout.Format.All, hf, hb]

/-! ## Lists -/

/-- The format has `n` items under `ent`, or throws and has none. -/
def Exact (ent : Hf) (n : Nat) (f : Format) : Prop :=
  ∀ tvb off, entries ent (run f tvb off).1 = n ∨ (run f tvb off).2 = none ∧ entries ent (run f tvb off).1 = 0

theorem Exact.item {ent : Hf} {n : Nat} {l : Label} {len : Nat} {next : List UInt8 → Format} (hl : l.hf ≠ ent)
    (h : ∀ v, Exact ent n (next v)) : Exact ent n (.item l len next) := by
  intro tvb off
  by_cases hle : off + len ≤ tvb.length
  · rw [run, Layout.run_item_of_le hle, entries, List.countP_cons_of_neg (by simpa using hl)]
    exact h _ tvb _
  · rw [run, Layout.run_item_of_lt hle]
    exact .inr ⟨rfl, rfl⟩

theorem Exact.macs {ent : Hf} {n : Nat} {l : Label} {next : Format} (hl : l.hf ≠ ent) (h : Exact ent n next) :
    ∀ m, Exact ent n (macs l m next)
  | 0 => h
  | m + 1 => Exact.item hl fun _ => Exact.macs hl h m

theorem Exact.macLst {ent : Hf} {n : Nat} {lst l : Label} {next : Format} (hlst : lst.hf ≠ ent) (hl : l.hf ≠ ent)
    (h : Exact ent n next) (cnt : UInt8) : Exact ent n (macLst lst l cnt next) := by
  unfold Wireshark.macLst
  split
  · exact Exact.item hlst fun _ => h.macs hl _
  · exact h

/-- When there is room for them, all entries are added. -/
theorem entries_macs {l : Label} (hv : l.value = true) {next : Format} (hf : Free l.hf next) :
    ∀ n off, off + 6 * n ≤ tvb.length → entries l.hf (run (macs l n next) tvb off).1 = n
  | 0, off, _ => hf.entries off
  | n + 1, off, h => by
    have hle : off + 6 ≤ tvb.length := by omega
    rw [run, macs, Layout.run_item_of_le hle, entries, List.countP_cons_of_pos (by simp), if_pos hv]
    rw [show List.countP _ _ = entries l.hf (run (macs l n next) tvb (off + 6)).1 from rfl,
      entries_macs hv hf n (off + 6) (by omega)]

theorem exact_macLst {ent : Hf} {lst l : Label} (hl : l.hf = ent) (hlst : lst.hf ≠ ent) (hlv : lst.value = false)
    (hv : l.value = true) {next : Format} (hf : Free ent next) (cnt : UInt8) :
    Exact ent cnt.toNat (macLst lst l cnt next) := by
  subst hl
  intro tvb off
  unfold macLst
  by_cases hc : cnt = 0
  · subst hc
    exact .inl (hf.entries off)
  · rw [if_pos hc]
    by_cases hle : off + 6 * cnt.toNat ≤ tvb.length
    · left
      rw [run, Layout.run_item_of_le hle, entries, List.countP_cons_of_neg (by simpa using hlst), hlv]
      exact entries_macs hv hf cnt.toNat off hle
    · rw [run, Layout.run_item_of_lt hle]
      exact .inr ⟨rfl, rfl⟩

/-- The parts of an entry of the link list. -/
def linkParts : List Hf := [.text, .topoLinkMacAddr, .topoLinkCost]

theorem entries_links {ent : Hf} (he : ent ∈ linkParts) {next : Format} (hf : Free ent next) :
    ∀ n off, off + 8 * n ≤ tvb.length → entries ent (run (links n next) tvb off).1 = n
  | 0, off, _ => hf.entries off
  | n + 1, off, h => by
    have h8 : off + 8 ≤ tvb.length := by omega
    have h6 : off + 6 ≤ tvb.length := by omega
    have h2 : off + 6 + 2 ≤ tvb.length := by omega
    have ih := entries_links he hf n (off + 8) (by omega)
    have hrun : (run (links (n + 1) next) tvb off).1 =
        ⟨⟨.topoLinkLst, .text⟩, off, 8⟩ :: ⟨⟨.topoLinkEntry, .topoLinkMacAddr⟩, off, 6⟩ ::
          ⟨⟨.topoLinkEntry, .topoLinkCost⟩, off + 6, 2⟩ :: (run (links n next) tvb (off + 8)).1 := by
      simp only [run, links]
      rw [Layout.run_item_of_le h8]
      simp only [Label.value, Hf.value, Bool.false_eq_true, if_false]
      rw [Layout.run_item_of_le h6]
      simp only [Label.value, Hf.value, if_true]
      rw [Layout.run_item_of_le h2]
      simp only [Label.value, Hf.value, if_true, Nat.add_assoc]
    rw [hrun]
    simp only [linkParts, List.mem_cons, List.not_mem_nil, or_false] at he
    rcases he with rfl | rfl | rfl
    · simpa [entries] using ih
    · simpa [entries] using ih
    · simpa [entries] using ih

theorem exact_linkLst {lst : Label} {ent : Hf} (he : ent ∈ linkParts) (hlst : lst.hf = .topoLinkLst)
    {next : Format} (hf : Free ent next) (cnt : UInt8) : Exact ent cnt.toNat (linkLst lst cnt next) := by
  intro tvb off
  unfold linkLst
  by_cases hc : cnt = 0
  · subst hc
    exact .inl (hf.entries off)
  · have hne : lst.hf ≠ ent := by
      rw [hlst]
      rintro rfl
      simp [linkParts] at he
    have hlv : lst.value = false := by rw [Label.value, hlst]; rfl
    rw [if_pos hc]
    by_cases hle : off + 8 * cnt.toNat ≤ tvb.length
    · left
      rw [run, Layout.run_item_of_le hle, entries, List.countP_cons_of_neg (by simpa using hne), hlv]
      exact entries_links he hf cnt.toNat off hle
    · rw [run, Layout.run_item_of_lt hle]
      exact .inr ⟨rfl, rfl⟩

/-! ## Count bytes -/

/-- Whatever the buffer, the list `ent` of the format has the length its count byte `cnt` says. -/
def AllCounts (cnt ent : Hf) (f : Format) : Prop :=
  ∀ tvb off, Counts tvb cnt ent (run f tvb off).1 (run f tvb off).2.isSome

theorem allCounts_free {cnt ent : Hf} {f : Format} (h : Free cnt f) : AllCounts cnt ent f := by
  intro tvb off it hit hcnt
  exact absurd hcnt ((Layout.run_all tvb h off).1 it hit)

theorem AllCounts.item {cnt ent : Hf} {l : Label} {len : Nat} {next : List UInt8 → Format} (hc : l.hf ≠ cnt)
    (he : l.hf ≠ ent) (h : ∀ v, AllCounts cnt ent (next v)) : AllCounts cnt ent (.item l len next) := by
  intro tvb off
  by_cases hle : off + len ≤ tvb.length
  · rw [run, Layout.run_item_of_le hle]
    intro it hit hcnt
    rw [entries, List.countP_cons_of_neg (by simpa using he)]
    rcases List.mem_cons.1 hit with rfl | hit
    · exact absurd hcnt hc
    · exact h _ tvb _ it hit hcnt
  · rw [run, Layout.run_item_of_lt hle]
    intro it hit
    cases hit

/-- The count byte itself. -/
theorem AllCounts.byte {cnt ent : Hf} {t : Tree} {next : UInt8 → Format} (hv : cnt.value = true) (hne : cnt ≠ ent)
    (he : ∀ x, Exact ent x.toNat (next x)) (hf : ∀ x, Free cnt (next x)) : AllCounts cnt ent (byte ⟨t, cnt⟩ next) := by
  intro tvb off
  by_cases hle : off + 1 ≤ tvb.length
  · rw [run, Wireshark.byte, Layout.run_item_of_le hle, slice_one]
    intro it hit hcnt
    rw [entries, List.countP_cons_of_neg (by simpa using hne)]
    rcases List.mem_cons.1 hit with rfl | hit
    · have hx := he (tvb.getD off 0) tvb (off + 1)
      rw [show (if Label.value ⟨t, cnt⟩ then off + 1 else off) = off + 1 from if_pos hv]
      rcases hx with hx | ⟨hx, hn⟩
      · exact .inl hx
      · exact .inr ⟨by rw [show (run (next (tvb.getD off 0)) tvb (off + 1)).2 = none from hx]; rfl, hn⟩
    · exact absurd hcnt ((Layout.run_all tvb (hf _) _).1 it hit)
  · rw [run, Wireshark.byte, Layout.run_item_of_lt hle]
    intro it hit
    cases hit

/-- The counts are in the body of a packet, behind its type. -/
theorem allCounts_packet {cnt ent : Hf} (hc : cnt ∈ [.beaconNmprCnt, .beaconMprCnt, .topoLinkCnt])
    (he : ent ∈ .beaconNmbrMacAddr :: .beaconMbrMacAddr :: linkParts)
    (h : ∀ type, AllCounts cnt ent (packet type)) : AllCounts cnt ent awdsPacket := by
  simp only [linkParts, List.mem_cons, List.not_mem_nil, or_false] at hc he
  have hskip : ∀ l : Label, l.hf ∈ [.type, .flags, .flag0, .flag1, .flag2, .flag3, .flag4, .flag5, .srcMacAddr, .seqNo] →
      l.hf ≠ cnt ∧ l.hf ≠ ent := by
    intro l hl
    constructor
    · rintro rfl
      rcases hc with hc | hc | hc <;> simp [hc] at hl
    · rintro rfl
      rcases he with he | he | he | he | he <;> simp [he] at hl
  have hitem : ∀ (l : Label) (len : Nat) (next : List UInt8 → Format),
      l.hf ∈ [.type, .flags, .flag0, .flag1, .flag2, .flag3, .flag4, .flag5, .srcMacAddr, .seqNo] →
      (∀ v, AllCounts cnt ent (next v)) → AllCounts cnt ent (.item l len next) := fun l len next hl hn =>
    AllCounts.item (hskip l hl).1 (hskip l hl).2 hn
  refine hitem _ _ _ (by simp) fun v => ?_
  refine hitem _ _ _ (by simp) fun _ => hitem _ _ _ (by simp) fun _ => hitem _ _ _ (by simp) fun _ => ?_
  refine hitem _ _ _ (by simp) fun _ => hitem _ _ _ (by simp) fun _ => hitem _ _ _ (by simp) fun _ => ?_
  refine hitem _ _ _ (by simp) fun _ => hitem _ _ _ (by simp) fun _ => hitem _ _ _ (by simp) fun _ => ?_
  exact h _

theorem counts_nmpr : AllCounts .beaconNmprCnt .beaconNmbrMacAddr awdsPacket := by
  refine allCounts_packet (by simp) (by simp) fun type => ?_
  have hf := free_flood (q := .beaconNmprCnt) (by simp) .awds
  unfold packet
  split
  · refine AllCounts.item (by simp) (by simp) fun _ => AllCounts.byte rfl (by simp) (fun x => ?_) fun x => ?_
    · apply Exact.item (by simp)
      intro v
      apply exact_macLst
      · rfl
      · simp
      · rfl
      · rfl
      · simp [Layout.Format.All]
    · simp [byte, Layout.Format.All]
  · split
    · exact allCounts_free hf.1
    · split
      · exact allCounts_free hf.2
      · exact allCounts_free trivial

theorem counts_mpr : AllCounts .beaconMprCnt .beaconMbrMacAddr awdsPacket := by
  refine allCounts_packet (by simp) (by simp) fun type => ?_
  have hf := free_flood (q := .beaconMprCnt) (by simp) .awds
  unfold packet
  split
  · refine AllCounts.item (by simp) (by simp) fun _ => AllCounts.item (by simp) (by simp) fun _ => ?_
    refine AllCounts.byte rfl (by simp) (fun x => ?_) fun x => ?_
    · apply Exact.macLst
      · simp
      · simp
      · apply exact_macLst
        · rfl
        · simp
        · rfl
        · rfl
        · trivial
    · simp [Layout.Format.All]
  · split
    · exact allCounts_free hf.1
    · split
      · exact allCounts_free hf.2
      · exact allCounts_free trivial

theorem counts_link {ent : Hf} (he : ent ∈ linkParts) : AllCounts .topoLinkCnt ent awdsPacket := by
  have hparts : ent = .text ∨ ent = .topoLinkMacAddr ∨ ent = .topoLinkCost := by simpa [linkParts] using he
  refine allCounts_packet (by simp) (by simp [hparts, linkParts]) fun type => ?_
  have hne : ∀ q, q ∉ linkParts → q ≠ ent := fun q hq h => hq (h ▸ he)
  have htopo : AllCounts .topoLinkCnt ent (topo .subtype) := by
    refine AllCounts.item (by simp) (hne _ (by simp [linkParts])) fun _ => ?_
    refine AllCounts.byte rfl (hne _ (by simp [linkParts])) (fun x => ?_) fun x => ?_
    · refine exact_linkLst he rfl ?_ x
      simp only [nodeName, byte, Layout.Format.All]
      exact ⟨hne _ (by simp [linkParts]), fun _ => ⟨hne _ (by simp [linkParts]), fun _ => trivial⟩⟩
    · simp [nodeName, byte, Layout.Format.All]
  have hemb : ∀ hf : Hf, hf ≠ .topoLinkCnt → hf ≠ ent → AllCounts .topoLinkCnt ent (embedded hf .awds) := by
    intro hf h1 h2
    refine AllCounts.item h1 h2 fun _ => AllCounts.item (by simp) (hne _ (by simp [linkParts])) fun v => ?_
    dsimp only
    split
    · exact htopo
    · split
      · exact allCounts_free (by simp [crypto, Layout.Format.All])
      · exact allCounts_free trivial
  unfold packet
  split
  · exact allCounts_free (free_beacon (by simp) _)
  · split
    · exact AllCounts.item (by simp) (hne _ (by simp [linkParts])) fun _ => hemb _ (by simp) (hne _ (by simp [linkParts]))
    · split
      · refine AllCounts.item (by simp) (hne _ (by simp [linkParts])) fun _ => ?_
        exact AllCounts.item (by simp) (hne _ (by simp [linkParts])) fun _ =>
          hemb _ (by simp) (hne _ (by simp [linkParts]))
      · exact allCounts_free trivial

/-! ## Embedded data -/

/-- The format leaves what is behind `e` to the Ethernet dissector. -/
def Leaves (tvb : Tvb) (off : Nat) (f : Format) (e : Nat) : Prop := (run f tvb off).2 = some (e, true)

variable {off e : Nat}

theorem leaves_item {l : Label} {len : Nat} {next : List UInt8 → Format} : Leaves tvb off (.item l len next) e ↔
    off + len ≤ tvb.length ∧ Leaves tvb (if l.value then off + len else off) (next (slice tvb off len)) e := by
  by_cases hle : off + len ≤ tvb.length
  · rw [Leaves, run, Layout.run_item_of_le hle]
    exact (and_iff_right hle).symm
  · rw [Leaves, run, Layout.run_item_of_lt hle]
    exact iff_of_false nofun fun h => hle h.1

theorem leaves_value {l : Label} {len : Nat} {next : List UInt8 → Format} (hv : l.value = true) :
    Leaves tvb off (.item l len next) e ↔ off + len ≤ tvb.length ∧ Leaves tvb (off + len) (next (slice tvb off len)) e := by
  rw [leaves_item, if_pos hv]

theorem not_leaves {f : Format} (h : f.All (fun _ => True) (· = false)) : ¬Leaves tvb off f e := by
  intro hleaves
  have hfalse : true = false := (Layout.run_all tvb h off).2 e true hleaves
  cases hfalse

/-- A data packet is over with its subtype. -/
theorem leaves_embedded {hf : Hf} (hv : hf.value = true) (t : Tree) :
    Leaves tvb off (embedded hf t) e ↔ tvb[off + 1]? = some awdsCapData ∧ e = off + 2 := by
  rw [embedded, byte, leaves_value (l := ⟨t, hf⟩) hv, byte, leaves_value rfl, slice_one (off + 1)]
  by_cases hle : off + 1 + 1 ≤ tvb.length
  · have hget : tvb[off + 1]? = some (tvb.getD (off + 1) 0) := by
      rw [List.getD_eq_getElem?_getD, List.getElem?_eq_getElem hle, Option.getD_some]
    rw [hget, Option.some.injEq]
    generalize tvb.getD (off + 1) 0 = subtype
    by_cases hdata : subtype = awdsCapData
    · subst hdata
      rw [if_neg (by decide), if_neg (by decide), decide_eq_true rfl]
      have hend : Leaves tvb (off + 1 + 1) (.done true) e ↔ e = off + 2 := by
        simp only [Leaves, run, Layout.Format.run, Option.some.injEq, Prod.mk.injEq, and_true]
        exact eq_comm
      exact ⟨fun h => ⟨rfl, hend.1 h.2.2⟩, fun h => ⟨by omega, hle, hend.2 h.2⟩⟩
    · refine iff_of_false (fun h => not_leaves ?_ h.2.2) fun h => hdata h.1
      rw [decide_eq_false hdata]
      simp [topo, crypto, nodeName, byte, Layout.Format.All]
  · have hget : tvb[off + 1]? = none := List.getElem?_eq_none (by omega)
    rw [hget]
    exact iff_of_false (fun h => hle h.2.1) fun h => absurd h.1.symm (Option.some_ne_none _)

theorem leaves_flood (t : Tree) : Leaves tvb off (flood t) e ↔ tvb[off + 7]? = some awdsCapData ∧ e = off + 8 := by
  rw [flood, leaves_value rfl, leaves_embedded rfl]
  refine and_iff_right_of_imp fun h => ?_
  have hlt := (List.getElem?_eq_some_iff.1 h.1).1
  omega

theorem leaves_unicast (t : Tree) : Leaves tvb off (unicast t) e ↔ tvb[off + 13]? = some awdsCapData ∧ e = off + 14 := by
  rw [unicast, leaves_value rfl, leaves_value rfl, leaves_embedded rfl, ← and_assoc]
  refine and_iff_right_of_imp fun h => ?_
  have hlt := (List.getElem?_eq_some_iff.1 h.1).1
  omega

theorem leaves_header : Leaves tvb 0 awdsPacket e ↔ 9 ≤ tvb.length ∧ Leaves tvb 9 (packet (tvb.getD 0 0 &&& 0x03)) e := by
  rw [awdsPacket, byte, leaves_item, slice_one]
  simp only [bits, List.foldr, leaves_item, Label.value, Hf.value, Bool.false_eq_true, if_false, if_true, Nat.zero_add,
    Nat.reduceAdd, ← and_assoc]
  refine and_congr_left fun _ => ?_
  omega

theorem behind_subtype {k : Nat} (hk : 9 ≤ k) : 9 ≤ tvb.length ∧ tvb[k]? = some awdsCapData ∧ e = k + 1 ↔
    (if tvb[k]? = some awdsCapData then some (k + 1) else none) = some e := by
  split
  · rename_i hdata
    have hlt := (List.getElem?_eq_some_iff.1 hdata).1
    rw [Option.some.injEq]
    exact ⟨fun h => h.2.2.symm, fun h => ⟨by omega, hdata, h.symm⟩⟩
  · rename_i hdata
    exact iff_of_false (fun h => hdata h.2.1) fun h => absurd h.symm (Option.some_ne_none _)

/-- The format of a packet leaves its data. -/
theorem leaves_packet : Leaves tvb 0 awdsPacket e ↔ dataFrom tvb = some e := by
  rw [leaves_header, dataFrom]
  generalize tvb.getD 0 0 &&& 0x03 = type
  by_cases hf : type = awdsFlood
  · subst hf
    have hu : ¬(awdsFlood = awdsUnicast ∧ tvb[22]? = some awdsCapData) := fun h => absurd h.1 (by decide)
    rw [show packet awdsFlood = flood .awds from rfl, leaves_flood, if_neg hu, behind_subtype (by decide : 9 ≤ 16)]
    simp only [true_and]
  · rw [if_neg (fun h => hf h.1)]
    by_cases hu : type = awdsUnicast
    · subst hu
      rw [show packet awdsUnicast = unicast .awds from rfl, leaves_unicast, behind_subtype (by decide : 9 ≤ 22)]
      simp only [true_and]
    · rw [if_neg (fun h => hu h.1)]
      refine iff_of_false (fun h => not_leaves ?_ h.2) fun h => absurd h.symm (Option.some_ne_none _)
      rw [packet, if_neg hf, if_neg hu]
      simp [beacon, byte, Layout.Format.All]

/-! ## The first byte -/

/-- From the first byte on, the type and the flags lie over it. -/
def BitsFirst (f : Format) : Prop := ∀ tvb, ∀ it ∈ (run f tvb 0).1, it.label.hf.bit = true → it.start = 0 ∧ it.len = 1

theorem BitsFirst.item {l : Label} {next : List UInt8 → Format}
    (h : ∀ v tvb, ∀ it ∈ (run (next v) tvb (if l.value then 0 + 1 else 0)).1, it.label.hf.bit = true →
      it.start = 0 ∧ it.len = 1) : BitsFirst (.item l 1 next) := by
  intro tvb
  by_cases hle : 0 + 1 ≤ tvb.length
  · rw [run, Layout.run_item_of_le hle, List.forall_mem_cons]
    exact ⟨fun _ => ⟨rfl, rfl⟩, h _ tvb⟩
  · rw [run, Layout.run_item_of_lt hle]
    simp

theorem bitsFirst_packet : BitsFirst awdsPacket := by
  refine BitsFirst.item fun v => BitsFirst.item fun _ => BitsFirst.item fun _ => BitsFirst.item fun _ => ?_
  refine BitsFirst.item fun _ => BitsFirst.item fun _ => BitsFirst.item fun _ => BitsFirst.item fun _ => ?_
  intro tvb it hit hbit
  refine absurd hbit ((Layout.run_all (P := fun l => l.hf.bit ≠ true) (Q := fun _ => True) tvb ?_ _).1 it hit)
  simp [packet, beacon, flood, unicast, embedded, topo, crypto, nodeName, byte, Layout.Format.All, Hf.bit]

/-! ## The dissector -/

/-- What `dissect_awds` puts out for a buffer, and whether it completes. -/
def dissected (env : Env) (tvb : Tvb) : Out × Option Unit := dissectAwds env tvb true .init

/-- The dissector adds what the format says. -/
theorem dissected_follows (env : Env) (tvb : Tvb) :
    counted (dissected env tvb).1.items = (run awdsPacket tvb 0).1 ∧
      fields (dissected env tvb).1.items = fields (run awdsPacket tvb 0).1 ∧
      (dissected env tvb).2.isSome = (run awdsPacket tvb 0).2.isSome ∧
      (dissected env tvb).1.eth = handed env tvb (run awdsPacket tvb 0).2 := by
  rcases Nat.eq_zero_or_pos tvb.length with h | h
  · rw [List.length_eq_zero_iff] at h
    subst h
    rw [dissected, dissectAwds_nil]
    have hrun : run awdsPacket [] 0 = ([], none) := Layout.run_item_of_lt (by simp)
    rw [hrun]
    exact ⟨rfl, rfl, rfl, rfl⟩
  · have hfollows : Follows env tvb 0 (dissectFields env tvb) awdsPacket := follows_fields
    have hproto : (run awdsPacket tvb 0).1.filter (·.label.hf ≠ .protoAwds) = (run awdsPacket tvb 0).1 := by
      refine List.filter_eq_self.2 fun it hit => ?_
      simpa using (Layout.run_all tvb free_proto 0).1 it hit
    rw [dissected, dissectAwds_of_pos h, hfollows.items, hfollows.throws, hfollows.eth]
    refine ⟨?_, rfl, rfl, rfl⟩
    rw [counted, List.filter_append, hproto]
    rfl

theorem Counts.of_counted {cnt ent : Hf} {items : List (Item Label)} {complete : Bool} (hc : cnt ≠ .protoAwds)
    (he : ent ≠ .protoAwds) (h : Counts tvb cnt ent (counted items) complete) : Counts tvb cnt ent items complete := by
  have hentries : entries ent (counted items) = entries ent items := by
    rw [entries, counted, List.countP_filter]
    refine List.countP_congr fun it _ => ?_
    simp only [Bool.and_eq_true, beq_iff_eq, decide_eq_true_eq]
    exact ⟨fun h => h.1, fun h => ⟨h, by rw [h]; exact he⟩⟩
  intro it hit hcnt
  rw [← hentries]
  refine h it (List.mem_filter.2 ⟨hit, ?_⟩) hcnt
  rw [hcnt]
  exact decide_eq_true hc

theorem dissected_contiguous (env : Env) (tvb : Tvb) : Contiguous 0 (fields (dissected env tvb).1.items) := by
  rw [(dissected_follows env tvb).2.1]
  exact Layout.run_contiguous tvb awdsPacket 0

theorem dissected_fits (env : Env) (tvb : Tvb) : ∀ it ∈ counted (dissected env tvb).1.items, it.fits tvb.length = true := by
  rw [(dissected_follows env tvb).1]
  exact Layout.run_fits tvb awdsPacket 0

theorem dissected_counts {cnt ent : Hf} (hc : cnt ≠ .protoAwds) (he : ent ≠ .protoAwds) (h : AllCounts cnt ent awdsPacket)
    (env : Env) (tvb : Tvb) : Counts tvb cnt ent (dissected env tvb).1.items (dissected env tvb).2.isSome := by
  obtain ⟨hitems, -, hcomplete, -⟩ := dissected_follows env tvb
  have hrun := h tvb 0
  rw [← hitems, ← hcomplete] at hrun
  exact hrun.of_counted hc he

theorem dissected_consumed (env : Env) (tvb : Tvb) : total (fields (dissected env tvb).1.items) ≤ tvb.length := by
  have hall : ∀ it ∈ fields (dissected env tvb).1.items, it.fits tvb.length = true := by
    rw [(dissected_follows env tvb).2.1]
    exact fun it hit => Layout.run_fits tvb awdsPacket 0 it (List.mem_filter.1 hit).1
  have hle := (dissected_contiguous env tvb).total_le hall (Nat.zero_le _)
  omega

/-- The Ethernet dissector gets the data. -/
theorem dissected_eth (env : Env) (tvb : Tvb) :
    (dissected env tvb).1.eth = if env.ethHandle then (dataFrom tvb).toList.map tvb.drop else [] := by
  rw [(dissected_follows env tvb).2.2.2]
  cases hfrom : dataFrom tvb with
  | some e =>
    have hstop : (run awdsPacket tvb 0).2 = some (e, true) := leaves_packet.2 hfrom
    rw [hstop]
    rfl
  | none =>
    have hstop : handed env tvb (run awdsPacket tvb 0).2 = [] := by
      rcases hrun : (run awdsPacket tvb 0).2 with _ | ⟨e, _ | _⟩
      · rfl
      · rfl
      · rw [leaves_packet.1 hrun] at hfrom
        cases hfrom
    rw [hstop]
    simp

/-- The data are what the fields leave. -/
theorem dissected_data (env : Env) {tvb : Tvb} {e : Nat} (h : dataFrom tvb = some e) :
    total (fields (dissected env tvb).1.items) = e := by
  have hend := Layout.run_stop tvb awdsPacket 0 e true (leaves_packet.2 h)
  rw [Nat.zero_add] at hend
  rw [(dissected_follows env tvb).2.1, hend]
  rfl

/-- A prefix of a packet is complete unless an item of the packet does not fit. -/
theorem dissected_prefix (env : Env) (tvb ext : Tvb) (hext : (dissected env (tvb ++ ext)).2.isSome) :
    (dissected env tvb).2.isSome = false ↔
      ∃ it ∈ counted (dissected env (tvb ++ ext)).1.items, it.fits tvb.length = false := by
  have happend : ∀ r, (run awdsPacket tvb 0).2 = some r ↔ (run awdsPacket (tvb ++ ext) 0).2 = some r ∧
      ∀ it ∈ (run awdsPacket (tvb ++ ext) 0).1, it.fits tvb.length = true :=
    (Layout.run_append tvb ext awdsPacket 0).2
  rw [(dissected_follows env (tvb ++ ext)).2.2.1] at hext
  rw [(dissected_follows env (tvb ++ ext)).1, (dissected_follows env tvb).2.2.1]
  obtain ⟨r, hr⟩ := Option.isSome_iff_exists.1 hext
  constructor
  · intro hnone
    by_contra hall
    have hstop : (run awdsPacket tvb 0).2 = some r := by
      refine (happend r).2 ⟨hr, fun it hit => ?_⟩
      by_contra hfit
      exact hall ⟨it, hit, by simpa using hfit⟩
    rw [hstop] at hnone
    cases hnone
  · rintro ⟨it, hit, hfit⟩
    rcases hstop : (run awdsPacket tvb 0).2 with _ | r'
    · rfl
    · rw [((happend r').1 hstop).2 it hit] at hfit
      cases hfit

/-- **Dissection is lossless.** For every buffer: the items are those of the format, and there is an exception
exactly if one of them does not fit; the bits lie over the first byte, and the fields are contiguous from
there on; each list has as many entries as its count byte says; the fields' bytes are the consumed prefix;
the Ethernet dissector gets the data of a packet, which are what is behind that prefix, and nothing of
another packet. And any prefix of a packet is dissected like the packet, up to the first field or list that
does not fit, at which the exception is raised. -/
theorem dissection_lossless (env : Env) (tvb : Tvb) :
    let items := (dissected env tvb).1.items
    let complete := (dissected env tvb).2.isSome
    let consumed := total (fields items)
    (counted items = (run awdsPacket tvb 0).1 ∧ complete = (run awdsPacket tvb 0).2.isSome) ∧
      (∀ it ∈ items, it.label.hf.bit → it.start = 0 ∧ it.len = 1) ∧
      (Contiguous 0 (fields items) ∧ (fields items).Pairwise fun a b => a.start + a.len ≤ b.start) ∧
      (Counts tvb .beaconNmprCnt .beaconNmbrMacAddr items complete ∧
        Counts tvb .beaconMprCnt .beaconMbrMacAddr items complete ∧
        ∀ ent ∈ linkParts, Counts tvb .topoLinkCnt ent items complete) ∧
      (consumed ≤ tvb.length ∧ ((fields items).map (Item.bytes tvb)).flatten = tvb.take consumed) ∧
      ((dissected env tvb).1.eth = (if env.ethHandle then (dataFrom tvb).toList.map tvb.drop else []) ∧
        ∀ e, dataFrom tvb = some e → consumed = e) ∧
      ∀ ext, counted items =
          (counted (dissected env (tvb ++ ext)).1.items).takeWhile (Item.fits tvb.length) ∧
        (∀ it ∈ counted items, it.bytes tvb = it.bytes (tvb ++ ext)) ∧
        ((dissected env (tvb ++ ext)).2.isSome → (complete = false ↔
          ∃ it ∈ counted (dissected env (tvb ++ ext)).1.items, it.fits tvb.length = false)) := by
  intro items complete consumed
  have hcontiguous : Contiguous 0 (fields items) := dissected_contiguous env tvb
  obtain ⟨hitems, -, hcomplete, -⟩ := dissected_follows env tvb
  refine ⟨⟨hitems, hcomplete⟩, fun it hit hbit => ?_, ⟨hcontiguous, hcontiguous.pairwise⟩, ⟨?_, ?_, fun ent he => ?_⟩,
    ⟨?_, ?_⟩, ⟨?_, fun e he => ?_⟩, fun ext => ⟨?_, fun it hit => ?_, fun hext => ?_⟩⟩
  · have hproto : it.label.hf ≠ .protoAwds := fun h => by rw [h] at hbit; cases hbit
    have hrun : it ∈ (run awdsPacket tvb 0).1 := by
      rw [← hitems]
      exact List.mem_filter.2 ⟨hit, by simpa using hproto⟩
    exact bitsFirst_packet tvb it hrun hbit
  · exact dissected_counts (by simp) (by simp) counts_nmpr env tvb
  · exact dissected_counts (by simp) (by simp) counts_mpr env tvb
  · have hproto : ent ≠ .protoAwds := by rintro rfl; simp [linkParts] at he
    exact dissected_counts (by simp) hproto (counts_link he) env tvb
  · exact dissected_consumed env tvb
  · rw [Layout.flatten_slices tvb hcontiguous]
    rfl
  · exact dissected_eth env tvb
  · exact dissected_data env he
  · rw [(dissected_follows env (tvb ++ ext)).1, show counted items = _ from hitems]
    exact (Layout.run_append tvb ext awdsPacket 0).1
  · have hle : it.start + it.len ≤ tvb.length := by simpa [Item.fits] using dissected_fits env tvb it hit
    exact (Layout.slice_append hle).symm
  · exact dissected_prefix env tvb ext hext

/-- A beacon with one relay, cut off in its list: the header of the list is the first item that does not fit. -/
example :
    let p : Tvb := [0, 1, 2, 3, 4, 5, 6, 0, 7, 0, 10, 0, 1, 9, 9, 9, 9, 9, 9]
    let env : Env := ⟨fun _ => false, true⟩
    (fields (dissected env p).1.items).map (fun it => (it.start, it.len)) =
        [(0, 1), (1, 6), (7, 2), (9, 2), (11, 1), (12, 1), (13, 6)] ∧
      (fields (dissected env (p.take 17)).1.items).map (fun it => (it.start, it.len)) =
        [(0, 1), (1, 6), (7, 2), (9, 2), (11, 1), (12, 1)] := by decide

end Wireshark
