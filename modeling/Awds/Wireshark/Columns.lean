import Awds.Wireshark.Lossless

/-!
# The columns without a tree

Without a tree `dissect_awds` returns before it reads a byte (:653). `summary_same`: the columns, the Ethernet
dissector and the exceptions are the same with and without a tree exactly if there is nothing to see of the packet but
the tree.
-/

namespace Wireshark

variable {env : Env} {tvb : Tvb} {α β : Type}

/-! ## What is done to the columns -/

/-- Nothing. -/
def Quiet (m : Dissector α) : Prop := ∀ o, (m o).1.changes = o.changes

/-- No change is undone. -/
def Grows (m : Dissector α) : Prop := ∀ o, o.changes.length ≤ (m o).1.changes.length

/-- There is a change, unless there is an exception. -/
def Touches (m : Dissector α) : Prop := ∀ o, (m o).2.isSome = true → o.changes.length < (m o).1.changes.length

section Rules

variable {m : Dissector α} {k : α → Dissector β}

theorem Quiet.grows (h : Quiet m) : Grows m := fun o => by rw [h o]

theorem Quiet.pure (a : α) : Quiet (Pure.pure a : Dissector α) := fun _ => rfl

theorem Quiet.bind (hm : Quiet m) (hk : ∀ a, Quiet (k a)) : Quiet (m >>= k) := by
  intro o
  have h := hm o
  rw [bind_apply]
  generalize m o = r at h
  obtain ⟨o', _ | a⟩ := r
  · exact h
  · exact (hk a o').trans h

theorem Grows.bind (hm : Grows m) (hk : ∀ a, Grows (k a)) : Grows (m >>= k) := by
  intro o
  have h := hm o
  rw [bind_apply]
  generalize m o = r at h
  obtain ⟨o', _ | a⟩ := r
  · exact h
  · exact h.trans (hk a o')

theorem Touches.bind_left (hm : Touches m) (hk : ∀ a, Grows (k a)) : Touches (m >>= k) := by
  intro o hsome
  have h := hm o
  rw [bind_apply] at hsome ⊢
  generalize m o = r at h hsome
  obtain ⟨o', _ | a⟩ := r
  · cases hsome
  · exact (h rfl).trans_le (hk a o')

theorem Touches.bind_right (hm : Grows m) (hk : ∀ a, Touches (k a)) : Touches (m >>= k) := by
  intro o hsome
  have h := hm o
  rw [bind_apply] at hsome ⊢
  generalize m o = r at h hsome
  obtain ⟨o', _ | a⟩ := r
  · cases hsome
  · exact h.trans_lt (hk a o' hsome)

end Rules

theorem quiet_ensure (offset length : Nat) : Quiet (tvbEnsureBytesExist tvb offset length) := by
  intro o
  unfold tvbEnsureBytesExist
  split <;> rfl

theorem quiet_guint8 (offset : Nat) : Quiet (tvbGetGuint8 tvb offset) := (quiet_ensure _ _).bind fun _ => .pure _

theorem quiet_ntohs (offset : Nat) : Quiet (tvbGetNtohs tvb offset) := (quiet_ensure _ _).bind fun _ => .pure _

theorem quiet_string (offset length : Nat) : Quiet (tvbGetEphemeralString tvb offset length) :=
  (quiet_ensure _ _).bind fun _ => .pure _

theorem quiet_subset (offset : Nat) : Quiet (tvbNewSubset tvb offset) := (quiet_ensure _ _).bind fun _ => .pure _

theorem quiet_addItem (t : Tree) (hf : Hf) (offset length : Nat) : Quiet (protoTreeAddItem t hf tvb offset length) :=
  (quiet_ensure _ _).bind fun _ _ => rfl

theorem quiet_addText (t : Tree) (offset length : Nat) (text : String) : Quiet (protoTreeAddText t tvb offset length text) :=
  (quiet_addItem _ _ _ _).bind fun _ _ => rfl

theorem quiet_callDissector (next : Tvb) : Quiet (callDissector next) := fun _ => rfl

theorem touches_add (c : Column) (s : String) : Touches (colAddStr c s) := by
  intro o _
  simp [colAddStr, Dissector.modify]

theorem Touches.grows_of_total {m : Dissector Unit} (h : Touches m) (htotal : ∀ o, (m o).2.isSome = true) : Grows m :=
  fun o => (h o (htotal o)).le

theorem grows_add (c : Column) (s : String) : Grows (colAddStr c s) := (touches_add c s).grows_of_total fun _ => rfl

theorem grows_append (c : Column) (s : String) : Grows (colAppendStr c s) := by
  intro o
  simp [colAppendStr, Dissector.modify]

theorem grows_fence : Grows colSetFence := by
  intro o
  simp [colSetFence, Dissector.modify]

theorem Grows.ifCheckCol {c : Column} {m : Dissector Unit} (h : Grows m) : Grows (ifCheckCol env c m) := by
  unfold Wireshark.ifCheckCol
  split
  · exact h
  · exact (Quiet.pure ()).grows

theorem quiet_ifCheckCol {c : Column} (h : env.checkCol c = false) (m : Dissector Unit) : Quiet (ifCheckCol env c m) := by
  unfold ifCheckCol
  rw [if_neg (by simp [h])]
  exact .pure ()

theorem Touches.ifCheckCol {c : Column} (h : env.checkCol c = true) {m : Dissector Unit} (hm : Touches m) :
    Touches (ifCheckCol env c m) := by
  unfold Wireshark.ifCheckCol
  rwa [if_pos h]

/-! ## The loops -/

theorem quiet_macLoop (t : Tree) (hf : Hf) : ∀ n offset, Quiet (macLoop tvb t hf n offset)
  | 0, _ => .pure _
  | n + 1, offset => (quiet_addItem _ _ _ _).bind fun _ => quiet_macLoop t hf n (offset + 6)

theorem quiet_macList (t sub : Tree) (lst hf : Hf) (cnt : UInt8) (offset : Nat) :
    Quiet (macList tvb t lst sub hf cnt offset) := by
  unfold macList
  split
  · exact (quiet_addItem _ _ _ _).bind fun _ => quiet_macLoop _ _ _ _
  · exact .pure _

theorem quiet_linkLoop : ∀ n offset, Quiet (linkLoop tvb n offset)
  | 0, _ => .pure _
  | n + 1, offset => by
    refine (quiet_guint8 _).bind fun _ => (quiet_guint8 _).bind fun _ => (quiet_guint8 _).bind fun _ => ?_
    refine (quiet_guint8 _).bind fun _ => (quiet_guint8 _).bind fun _ => (quiet_guint8 _).bind fun _ => ?_
    refine (quiet_ntohs _).bind fun _ => (quiet_addText _ _ _ _).bind fun _ => ?_
    exact (quiet_addItem _ _ _ _).bind fun _ => (quiet_addItem _ _ _ _).bind fun _ => quiet_linkLoop n (offset + 8)

theorem quiet_linkList (t : Tree) (cnt : UInt8) (offset : Nat) : Quiet (linkList tvb t cnt offset) := by
  unfold linkList
  split
  · exact (quiet_addItem _ _ _ _).bind fun _ => quiet_linkLoop _ _
  · exact .pure _

/-! ## The dissect functions -/

/-- The only changes, if any, are behind `check_col` of the info column. -/
structure InfoOnly (env : Env) (m : Dissector α) : Prop where
  grows : Grows m
  quiet : env.checkCol .info = false → Quiet m

theorem Quiet.infoOnly {m : Dissector α} (h : Quiet m) : InfoOnly env m := ⟨h.grows, fun _ => h⟩

theorem InfoOnly.bind {m : Dissector α} {k : α → Dissector β} (hm : InfoOnly env m) (hk : ∀ a, InfoOnly env (k a)) :
    InfoOnly env (m >>= k) :=
  ⟨hm.grows.bind fun a => (hk a).grows, fun h => (hm.quiet h).bind fun a => (hk a).quiet h⟩

theorem infoOnly_ifCheckCol {m : Dissector Unit} (h : Grows m) : InfoOnly env (ifCheckCol env .info m) :=
  ⟨h.ifCheckCol, fun hinfo => quiet_ifCheckCol hinfo m⟩

theorem infoOnly_beacon (t : Tree) (offset : Nat) : InfoOnly env (dissectAwdsBeacon env tvb t offset) := by
  refine (quiet_ntohs _).infoOnly.bind fun interval => (quiet_addItem _ _ _ _).infoOnly.bind fun _ => ?_
  refine (quiet_guint8 _).infoOnly.bind fun nmbrCnt => (quiet_addItem _ _ _ _).infoOnly.bind fun _ => ?_
  refine (quiet_guint8 _).infoOnly.bind fun mbrCnt => (quiet_addItem _ _ _ _).infoOnly.bind fun _ => ?_
  refine (infoOnly_ifCheckCol (grows_add _ _)).bind fun _ => (quiet_macList _ _ _ _ _ _).infoOnly.bind fun _ => ?_
  exact (quiet_macList _ _ _ _ _ _).infoOnly.bind fun _ => (Quiet.pure _).infoOnly

theorem infoOnly_topo (t : Tree) (offset : Nat) : InfoOnly env (dissectAwdsTopo env tvb t offset) := by
  refine (quiet_addItem _ _ _ _).infoOnly.bind fun _ => (quiet_guint8 _).infoOnly.bind fun linkCnt => ?_
  refine (quiet_addItem _ _ _ _).infoOnly.bind fun _ => (quiet_linkList _ _ _).infoOnly.bind fun _ => ?_
  refine (quiet_guint8 _).infoOnly.bind fun nameLen => (quiet_addItem _ _ _ _).infoOnly.bind fun _ => ?_
  refine (infoOnly_ifCheckCol ?_).bind fun _ => (quiet_addItem _ _ _ _).infoOnly
  exact (quiet_string _ _).grows.bind fun name => grows_append _ _

theorem infoOnly_crypto (t : Tree) (offset : Nat) : InfoOnly env (dissectAwdsCrypto env tvb t offset) := by
  refine (quiet_addItem _ _ _ _).infoOnly.bind fun _ => (quiet_addItem _ _ _ _).infoOnly.bind fun _ => ?_
  exact infoOnly_ifCheckCol (grows_append _ _)

theorem infoOnly_data (offset : Nat) : InfoOnly env (dissectAwdsData env tvb offset) := by
  refine (infoOnly_ifCheckCol ((grows_append _ _).bind fun _ => grows_fence)).bind fun _ => ?_
  refine (quiet_subset _).infoOnly.bind fun next => ?_
  split
  · exact (quiet_callDissector next).infoOnly
  · exact (Quiet.pure _).infoOnly

theorem infoOnly_switch (subtype : UInt8) (offset : Nat) :
    InfoOnly env (if subtype = awdsTopo then dissectAwdsTopo env tvb .subtype offset
      else if subtype = awdsCrypto then dissectAwdsCrypto env tvb .subtype offset
      else if subtype = awdsCapData then dissectAwdsData env tvb offset
      else pure ()) := by
  split
  · exact infoOnly_topo _ _
  · split
    · exact infoOnly_crypto _ _
    · split
      · exact infoOnly_data _
      · exact (Quiet.pure _).infoOnly

theorem infoOnly_embedded (hf : Hf) (name : String) (t : Tree) (offset : Nat) :
    InfoOnly env (dissectAwdsEmbedded env tvb hf name t offset) := by
  refine (quiet_guint8 _).infoOnly.bind fun ttl => (quiet_addItem _ _ _ _).infoOnly.bind fun _ => ?_
  refine (infoOnly_ifCheckCol (grows_add _ _)).bind fun _ => (quiet_guint8 _).infoOnly.bind fun subtype => ?_
  exact (quiet_addItem _ _ _ _).infoOnly.bind fun _ => infoOnly_switch _ _

theorem infoOnly_packet (type : UInt8) (offset : Nat) : InfoOnly env (dissectPacket env tvb type offset) := by
  unfold dissectPacket
  split
  · exact infoOnly_beacon _ _
  · split
    · exact (quiet_addItem _ _ _ _).infoOnly.bind fun _ => infoOnly_embedded _ _ _ _
    · split
      · refine (quiet_addItem _ _ _ _).infoOnly.bind fun _ => (quiet_addItem _ _ _ _).infoOnly.bind fun _ => ?_
        exact infoOnly_embedded _ _ _ _
      · exact (Quiet.pure _).infoOnly

theorem touches_beacon (hinfo : env.checkCol .info = true) (t : Tree) (offset : Nat) :
    Touches (dissectAwdsBeacon env tvb t offset) := by
  refine .bind_right (quiet_ntohs _).grows fun interval => .bind_right (quiet_addItem _ _ _ _).grows fun _ => ?_
  refine .bind_right (quiet_guint8 _).grows fun nmbrCnt => .bind_right (quiet_addItem _ _ _ _).grows fun _ => ?_
  refine .bind_right (quiet_guint8 _).grows fun mbrCnt => .bind_right (quiet_addItem _ _ _ _).grows fun _ => ?_
  refine .bind_left ((touches_add _ _).ifCheckCol hinfo) fun _ => ?_
  refine ((quiet_macList _ _ _ _ _ _).bind fun _ => ?_).grows
  exact (quiet_macList _ _ _ _ _ _).bind fun _ => .pure _

theorem touches_embedded (hinfo : env.checkCol .info = true) (hf : Hf) (name : String) (t : Tree) (offset : Nat) :
    Touches (dissectAwdsEmbedded env tvb hf name t offset) := by
  refine .bind_right (quiet_guint8 _).grows fun ttl => .bind_right (quiet_addItem _ _ _ _).grows fun _ => ?_
  refine .bind_left ((touches_add _ _).ifCheckCol hinfo) fun _ => ?_
  refine (quiet_guint8 _).grows.bind fun subtype => (quiet_addItem _ _ _ _).grows.bind fun _ => ?_
  exact (infoOnly_switch _ _).grows

/-- The types of packets that are dissected. -/
def Known (type : UInt8) : Prop := type = awdsBeacon ∨ type = awdsFlood ∨ type = awdsUnicast

instance (type : UInt8) : Decidable (Known type) := inferInstanceAs (Decidable (_ ∨ _ ∨ _))

theorem touches_packet (hinfo : env.checkCol .info = true) {type : UInt8} (h : Known type) (offset : Nat) :
    Touches (dissectPacket env tvb type offset) := by
  obtain rfl | rfl | rfl := h
  · exact touches_beacon hinfo _ _
  · exact .bind_right (quiet_addItem _ _ _ _).grows fun _ => touches_embedded hinfo _ _ _ _
  · refine .bind_right (quiet_addItem _ _ _ _).grows fun _ => .bind_right (quiet_addItem _ _ _ _).grows fun _ => ?_
    exact touches_embedded hinfo _ _ _ _

theorem dissectPacket_unknown {type : UInt8} (h : ¬Known type) (offset : Nat) :
    dissectPacket env tvb type offset = pure () := by
  simp only [Known, not_or] at h
  rw [dissectPacket, if_neg h.1, if_neg h.2.1, if_neg h.2.2]

/-! ## Two runs -/

/-- What `dissect_awds` does with the packet behind its header, and with the protocol column. -/
def dissectRest (env : Env) (tvb : Tvb) : Dissector Unit := do
  dissectPacket env tvb (tvb.getD 0 0 &&& 0x03) 9
  ifCheckCol env .protocol (colAddStr .protocol "AWDS")

/-- The items of the header. -/
def dissectHeader (tvb : Tvb) : Dissector Unit := do
  protoTreeAddItem .awds .type tvb 0 1
  protoTreeAddItem .awds .flags tvb 0 1
  protoTreeAddItem .flags .flag0 tvb 0 1
  protoTreeAddItem .flags .flag1 tvb 0 1
  protoTreeAddItem .flags .flag2 tvb 0 1
  protoTreeAddItem .flags .flag3 tvb 0 1
  protoTreeAddItem .flags .flag4 tvb 0 1
  protoTreeAddItem .flags .flag5 tvb 0 1
  protoTreeAddItem .awds .srcMacAddr tvb 1 6
  protoTreeAddItem .awds .seqNo tvb 7 2

theorem dissectFields_eq (env : Env) (tvb : Tvb) :
    dissectFields env tvb = dissectHeader tvb >>= fun _ => dissectRest env tvb := by
  simp only [dissectFields, dissectHeader, dissectRest, bind_assoc']

theorem quiet_header : Quiet (dissectHeader tvb) := by
  unfold dissectHeader
  refine (quiet_addItem _ _ _ _).bind fun _ => (quiet_addItem _ _ _ _).bind fun _ => (quiet_addItem _ _ _ _).bind fun _ => ?_
  refine (quiet_addItem _ _ _ _).bind fun _ => (quiet_addItem _ _ _ _).bind fun _ => (quiet_addItem _ _ _ _).bind fun _ => ?_
  refine (quiet_addItem _ _ _ _).bind fun _ => (quiet_addItem _ _ _ _).bind fun _ => (quiet_addItem _ _ _ _).bind fun _ => ?_
  exact quiet_addItem _ _ _ _

/-- The columns are not wanted, or there is nothing to write to them. -/
structure NoColumns (env : Env) (tvb : Tvb) : Prop where
  protocol : env.checkCol .protocol = false
  info : env.checkCol .info = false ∨ ¬Known (tvb.getD 0 0 &&& 0x03)

theorem quiet_fields (h : NoColumns env tvb) : Quiet (dissectFields env tvb) := by
  rw [dissectFields_eq]
  refine quiet_header.bind fun _ => ?_
  have hpacket : Quiet (dissectPacket env tvb (tvb.getD 0 0 &&& 0x03) 9) := by
    rcases h.info with hinfo | hunknown
    · exact (infoOnly_packet _ _).quiet hinfo
    · rw [dissectPacket_unknown hunknown]
      exact .pure ()
  exact hpacket.bind fun _ => quiet_ifCheckCol h.protocol _

theorem touches_fields (h : ¬NoColumns env tvb) : Touches (dissectFields env tvb) := by
  rw [dissectFields_eq]
  refine .bind_right quiet_header.grows fun _ => ?_
  cases hprotocol : env.checkCol .protocol with
  | true => exact .bind_right (infoOnly_packet _ _).grows fun _ => (touches_add _ _).ifCheckCol hprotocol
  | false =>
    have hinfo : env.checkCol .info = true ∧ Known (tvb.getD 0 0 &&& 0x03) := by
      by_contra hcond
      refine h ⟨hprotocol, ?_⟩
      rw [not_and_or, Bool.not_eq_true] at hcond
      exact hcond
    exact .bind_left (touches_packet hinfo.1 hinfo.2 _) fun _ => (quiet_ifCheckCol hprotocol _).grows

/-- Two runs that differ in the tree make the same changes of the columns, call the Ethernet dissector on the same
bytes, and throw both or neither. -/
structure SameSummary (env : Env) (tvb : Tvb) : Prop where
  changes : ∀ o, (dissectAwds env tvb true o).1.changes = (dissectAwds env tvb false o).1.changes
  eth : ∀ o, (dissectAwds env tvb true o).1.eth = (dissectAwds env tvb false o).1.eth
  throws : ∀ o, (dissectAwds env tvb true o).2.isSome = (dissectAwds env tvb false o).2.isSome

/-- The packet is complete, and no data in it is handed to the Ethernet dissector. -/
def NothingHanded (env : Env) (tvb : Tvb) : Prop :=
  ∃ stop data, (run awdsPacket tvb 0).2 = some (stop, data) ∧ ¬(data = true ∧ env.ethHandle = true)

theorem handed_eq_nil {stop : Nat} {data : Bool} :
    handed env tvb (some (stop, data)) = [] ↔ ¬(data = true ∧ env.ethHandle = true) := by
  cases data <;> cases he : env.ethHandle <;> simp [handed, he]

/-- The run with a tree completes and calls nobody. -/
theorem nothingHanded_iff (h : 0 < tvb.length) :
    NothingHanded env tvb ↔
      ∀ o, (dissectAwds env tvb true o).2.isSome = true ∧ (dissectAwds env tvb true o).1.eth = o.eth := by
  have hfollows : Follows env tvb 0 (dissectFields env tvb) awdsPacket := follows_fields
  have hthrows : ∀ o, (dissectAwds env tvb true o).2.isSome = (run awdsPacket tvb 0).2.isSome := by
    intro o
    rw [dissectAwds_of_pos h, hfollows.throws]
  have heth : ∀ o, (dissectAwds env tvb true o).1.eth = o.eth ++ handed env tvb (run awdsPacket tvb 0).2 := by
    intro o
    rw [dissectAwds_of_pos h, hfollows.eth]
  constructor
  · rintro ⟨stop, data, hstop, hdata⟩ o
    rw [hthrows, heth, hstop, handed_eq_nil.2 hdata, List.append_nil]
    exact ⟨rfl, rfl⟩
  · intro hall
    obtain ⟨hsome, hsame⟩ := hall .init
    rw [hthrows] at hsome
    obtain ⟨⟨stop, data⟩, hstop⟩ := Option.isSome_iff_exists.1 hsome
    rw [heth, hstop] at hsame
    exact ⟨stop, data, hstop, handed_eq_nil.1 (List.append_cancel_left (hsame.trans (List.append_nil _).symm))⟩

/-- An empty buffer has no type. -/
theorem not_same_nil : ¬SameSummary env [] := fun h => nomatch h.throws .init

theorem not_handed_nil : ¬NothingHanded env [] := by
  rintro ⟨stop, data, hstop, -⟩
  have hrun : run awdsPacket [] 0 = ([], none) := Layout.run_item_of_lt (by simp)
  rw [hrun] at hstop
  cases hstop

/-- **The tree makes no difference exactly if the packet is complete, has no data for the Ethernet dissector, and no
column is written to.** -/
theorem summary_same (env : Env) (tvb : Tvb) : SameSummary env tvb ↔ NothingHanded env tvb ∧ NoColumns env tvb := by
  rcases Nat.eq_zero_or_pos tvb.length with hnil | hpos
  · rw [List.length_eq_zero_iff] at hnil
    subst hnil
    exact iff_of_false not_same_nil fun h => not_handed_nil h.1
  · rw [nothingHanded_iff hpos]
    constructor
    · intro h
      have hall : ∀ o, (dissectAwds env tvb true o).2.isSome = true ∧ (dissectAwds env tvb true o).1.eth = o.eth :=
        fun o => ⟨h.throws o, h.eth o⟩
      refine ⟨hall, ?_⟩
      by_contra hcolumns
      have hsome := (hall .init).1
      have hsame := h.changes .init
      rw [dissectAwds_of_pos hpos] at hsome hsame
      have hlt := touches_fields hcolumns _ hsome
      rw [hsame] at hlt
      exact lt_irrefl _ hlt
    · rintro ⟨hall, hcolumns⟩
      refine ⟨fun o => ?_, fun o => (hall o).2, fun o => (hall o).1⟩
      rw [dissectAwds_of_pos hpos, quiet_fields hcolumns]
      rfl

/-- A beacon, with the columns wanted: only with a tree they are written to. -/
theorem columns_need_tree : ¬∀ (env : Env) (tvb : Tvb), SameSummary env tvb := by
  intro hall
  have h := congrArg List.length ((hall ⟨fun _ => true, true⟩ [0, 0, 0, 0, 0, 0, 1, 0, 1, 0, 10, 0, 0]).changes .init)
  exact absurd h (by decide)

end Wireshark
