import SecureWan.Transport.Enqueue

/-!
# The IV on the wire in tunnel mode

`main_tunnel.c` keeps the IV of a packet in the 16 bytes of headroom before it, until the
device is done. `tunnel_encap` then prepends 44 bytes, writes the outer headers over the
first part of them and copies the IV from where it was kept: 28 bytes behind the new front.
-/

namespace SecureWan.TunnelMode

open CryptoParams

section Enqueue

variable {Key : Type} (cp : CryptoParams Key)

/-- The `do_cipher` part of the enqueue function: the IV, on the encrypt side also its copy
before the packet, and the data range. -/
def fillCipher (rand : UInt64 × UInt64) (pktIv : Bytes) (ipdataOffset dataLen : ℕ) (m : Mbuf)
    (op : CryptoOp Key) : Mbuf × CryptoOp Key :=
  if cp.chain.doCipher then
    let cipher := range cp.cipherAlgo.inBits ipdataOffset dataLen
    if cp.isEncrypt then
      let priv := op.priv.write 0 (generatePerPktIv rand)
      (Transport.stashIv m (priv.read 0 ivInPacketSize), { op with priv := priv, cipher := cipher })
    else
      (m, { op with priv := op.priv.write 0 (pktIv.readAt 0 cp.cipherIvLength), cipher := cipher })
  else (m, op)

/-- `l2fwd_simple_crypto_enqueue` up to the call of `l2fwd_crypto_enqueue`. -/
def l2fwdSimpleCryptoEnqueue (rand : UInt64 × UInt64) (pktIv : Bytes) (m : Mbuf)
    (op : CryptoOp Key) : Option (CryptoOp Key) :=
  let ipdataOffset := etherHdrLen
  if m.pktLen < ipdataOffset then none
  else
    let dataLen := cp.cryptoDataLen m
    let padLen := cp.cryptoPadLen dataLen
    match appendPadding m padLen with
    | none => none
    | some m =>
      let dataLen := (dataLen + padLen) % 2 ^ 32
      let op := { op with session := some cp.session }
      let (m, op) := cp.fillAuth ipdataOffset dataLen m op
      let (m, op) := fillCipher cp rand pktIv ipdataOffset dataLen m op
      let (m, op) := cp.fillAead ipdataOffset dataLen m op
      some { op with mSrc := some m }

end Enqueue

section Encap

variable (ipv4Cksum : Bytes → UInt16)

/-- `TUNNEL_PROTO`. -/
def tunnelProto : UInt8 := 253

/-- The outer IPv4 header, as `tunnel_encap` fills it in, with a given checksum. -/
def outerIpFields (innerLen : ℕ) (cksum : UInt16) : Bytes :=
  [0x45, 0] ++ be16 (ipv4HdrLen + udpHdrLen + ivInPacketSize + innerLen) ++ be16 0 ++
    be16 0x4000 ++ [64, tunnelProto] ++ be16 cksum.toNat ++ [10, 0, 0, 1] ++ [10, 0, 0, 2]

/-- The outer IPv4 header with its checksum, computed over a zero checksum field. -/
def outerIpHdr (innerLen : ℕ) : Bytes :=
  outerIpFields innerLen (ipv4Cksum (outerIpFields innerLen 0))

/-- The memory from `buf_addr` on. -/
def buffer (m : Mbuf) : Bytes := m.headroom ++ m.region

/-- `tunnel_encap`: outer IPv4, UDP and the IV are put between the Ethernet header and the
encrypted packet. The IV is given by its address in the same buffer, from `buf_addr` on. -/
def tunnelEncap (ivData : ℕ) (m : Mbuf) : Option Mbuf :=
  let innerLen := (m.pktLen + 2 ^ 16 - etherHdrLen) % 2 ^ 16
  let ethCopy := m.load 0 etherHdrLen
  match m.prepend (ipv4HdrLen + udpHdrLen + ivInPacketSize) with
  | none => none
  | some m =>
    let m := m.store 0 ethCopy
    let m := m.store etherHdrLen (outerIpHdr ipv4Cksum innerLen)
    let m := m.store (etherHdrLen + ipv4HdrLen) (outerUdpHdr innerLen)
    -- `rte_memcpy` of 16 bytes is one load and one store.
    let m := m.store (etherHdrLen + ipv4HdrLen + udpHdrLen)
      ((buffer m).readAt ivData ivInPacketSize)
    some (m.store 12 (be16 etherTypeIpv4))

/-- `l2fwd_simple_forward` up to the call of `l2fwd_send_packet`. A null pointer for the IV
is not survived. -/
def l2fwdSimpleForward (portid authDigestLength : ℕ) (iv : Option ℕ) (m : Mbuf) : Option Mbuf :=
  if portid = 0 then
    match iv with
    | none => none
    | some ivData => tunnelEncap ipv4Cksum ivData m
  else if portid = 1 then
    let m := if 0 < authDigestLength then m.trim authDigestLength else m
    let padLen := sub32 (sub32 m.pktLen etherHdrLen) (m.field16 (etherHdrLen + 2))
    some (if 0 < padLen ∧ padLen < 16 then m.trim padLen else m)
  else some m

variable {Key : Type} (cp : CryptoParams Key)

/-- The part of the main loop behind `rte_cryptodev_dequeue_burst`, for one packet. -/
def dequeue (portid authDigestLength : ℕ) (m : Mbuf) : Option Mbuf :=
  let deqIv := if portid = 0 ∧ cp.chain.doCipher = true then
    some (m.headroom.length - ivInPacketSize) else none
  l2fwdSimpleForward ipv4Cksum portid authDigestLength deqIv m

/-- A LAN frame from the enqueue function to the wire, with the operation that the device
gets. Whatever the device writes, it writes behind the headroom. -/
def lanFrame (device : CryptoOp Key → Bytes) (authDigestLength : ℕ) (rand : UInt64 × UInt64)
    (m : Mbuf) (op : CryptoOp Key) : Option (CryptoOp Key × Mbuf) :=
  match l2fwdSimpleCryptoEnqueue cp rand [] m op with
  | none => none
  | some op =>
    match op.mSrc with
    | none => none
    | some m =>
      (dequeue ipv4Cksum cp 0 authDigestLength (m.store 0 (device op))).map fun wire => (op, wire)

end Encap

/-- Where the IV of a frame is on the wire. -/
def wireIvAt : ℕ := etherHdrLen + ipv4HdrLen + udpHdrLen

/-- What the outer headers put where the first bytes of the IV were kept: the end of the
source address, the destination address and the UDP header. -/
def overIv (innerLen : ℕ) : Bytes := [0, 1, 10, 0, 0, 2] ++ outerUdpHdr innerLen

/-- The length of a packet when the device gets it: padded, and with room for a digest where
one is generated and fits. -/
def enqueuedLen {Key : Type} (cp : CryptoParams Key) (m : Mbuf) : ℕ :=
  let padLen := cp.cryptoPadLen (cp.cryptoDataLen m) % 2 ^ 16
  m.pktLen + padLen +
    if cp.chain.doHash = true ∧ cp.hashVerify = false ∧
        cp.digestLength ≤ m.tailroom.length - padLen then cp.digestLength else 0

/-! ### The IV before the packet -/

section Enqueue

variable {Key : Type} {cp : CryptoParams Key} {m m' : Mbuf} {op op' : CryptoOp Key}

/-- Padding leaves the headroom alone. -/
theorem appendPadding_headroom {padLen : ℕ} (h : appendPadding m padLen = some m') :
    m'.headroom = m.headroom := by
  unfold appendPadding at h
  split at h
  · rw [Option.some.inj h]
  · obtain ⟨m₁, hm₁, rfl⟩ := Option.map_eq_some_iff.mp h
    exact (Mbuf.of_append hm₁).2.1

/-- So does a digest, which takes its bytes from the tailroom if there are enough. -/
theorem placeDigest_shape (ipdataOffset dataLen : ℕ) (m : Mbuf) :
    (cp.placeDigest ipdataOffset dataLen m).1.headroom = m.headroom ∧
      (cp.placeDigest ipdataOffset dataLen m).1.pktLen = m.pktLen +
        if cp.hashVerify = false ∧ cp.digestLength ≤ m.tailroom.length then cp.digestLength
        else 0 := by
  cases hverify : cp.hashVerify with
  | true =>
    rw [placeDigest_verify _ _ hverify]
    simp
  | false =>
    rcases Nat.lt_or_ge m.tailroom.length cp.digestLength with hfull | hroom
    · rw [placeDigest_full _ _ hverify hfull]
      simp [Nat.not_le.mpr hfull]
    · obtain ⟨m', hm'⟩ := Mbuf.append_isSome hroom
      obtain ⟨-, hhead, hdata, -⟩ := Mbuf.of_append hm'
      have hplace : (cp.placeDigest ipdataOffset dataLen m).1 = m' := by
        simp [placeDigest, hverify, hm']
      refine ⟨hplace ▸ hhead, ?_⟩
      rw [hplace, if_pos ⟨rfl, hroom⟩, Mbuf.pktLen, hdata, List.length_append, List.length_take,
        Nat.min_eq_left hroom, Mbuf.pktLen]

theorem fillAuth_shape (cp : CryptoParams Key) (ipdataOffset dataLen : ℕ) (m : Mbuf)
    (op : CryptoOp Key) :
    (cp.fillAuth ipdataOffset dataLen m op).1.headroom = m.headroom ∧
      (cp.fillAuth ipdataOffset dataLen m op).1.pktLen = m.pktLen +
        if cp.chain.doHash = true ∧ cp.hashVerify = false ∧
          cp.digestLength ≤ m.tailroom.length then cp.digestLength else 0 := by
  unfold fillAuth
  cases hhash : cp.chain.doHash with
  | true => simpa using placeDigest_shape ipdataOffset dataLen m
  | false => simp

theorem length_stashIv_headroom (m : Mbuf) (iv : Bytes) :
    (Transport.stashIv m iv).headroom.length = m.headroom.length := by
  simp only [Transport.stashIv, List.length_append, List.length_take, List.length_drop]
  omega

/-- With room before the packet, the copy is there in full. -/
theorem stashIv_headroom {iv : Bytes} (h : iv.length ≤ m.headroom.length) :
    (Transport.stashIv m iv).headroom = m.headroom.take (m.headroom.length - iv.length) ++ iv := by
  simp only [Transport.stashIv, Nat.sub_eq_zero_of_le h, List.drop_zero]

/-- **Encrypt operations.** The IV of the operation is the generated one, and its copy is
right before the packet. -/
theorem enqueue_spec (rand : UInt64 × UInt64) (pktIv : Bytes)
    (hcipher : cp.chain.doCipher = true) (henc : cp.isEncrypt = true)
    (h : l2fwdSimpleCryptoEnqueue cp rand pktIv m op = some op') :
    etherHdrLen ≤ m.pktLen ∧ op'.priv.read 0 ivInPacketSize = generatePerPktIv rand ∧
      ∃ m', op'.mSrc = some m' ∧ m'.pktLen = enqueuedLen cp m ∧
        m'.headroom = (Transport.stashIv m (generatePerPktIv rand)).headroom := by
  have haead : cp.chain.doAead = false := XformChain.doAead_of_doCipher hcipher
  have hiv : ∀ priv : Memory, (priv.write 0 (generatePerPktIv rand)).read 0 ivInPacketSize =
      generatePerPktIv rand :=
    fun _ => Memory.read_write_self (length_generatePerPktIv rand)
  simp only [l2fwdSimpleCryptoEnqueue, fillCipher, fillAead, hcipher, henc, haead, if_true,
    Bool.false_eq_true, if_false, hiv] at h
  split at h
  · cases h
  next hlen =>
    split at h
    · cases h
    next m₁ hpad =>
      obtain ⟨-, hdata, htail⟩ := of_appendPadding hpad
      have hhead := appendPadding_headroom hpad
      cases h
      obtain ⟨hhead₂, hlen₂⟩ := fillAuth_shape cp etherHdrLen
        ((cp.cryptoDataLen m + cp.cryptoPadLen (cp.cryptoDataLen m)) % 2 ^ 32) m₁
        { op with session := some cp.session }
      refine ⟨Nat.le_of_not_lt hlen, hiv _, _, rfl, ?_, ?_⟩
      · refine hlen₂.trans ?_
        rw [enqueuedLen, htail, Mbuf.pktLen, hdata, Mbuf.pktLen]
      · simp only [Transport.stashIv, hhead₂, hhead]

end Enqueue

/-! ### The copy on the wire -/

section Wire

variable {ipv4Cksum : Bytes → UInt16} {m wire : Mbuf}

@[simp] theorem length_outerIpHdr (ipv4Cksum : Bytes → UInt16) (innerLen : ℕ) :
    (outerIpHdr ipv4Cksum innerLen).length = ipv4HdrLen := rfl

/-- The last bytes of the outer headers. -/
theorem drop_outerIpHdr (ipv4Cksum : Bytes → UInt16) (innerLen : ℕ) :
    (outerIpHdr ipv4Cksum innerLen).drop 14 ++ outerUdpHdr innerLen = overIv innerLen := rfl

@[simp] theorem length_overIv (innerLen : ℕ) : (overIv innerLen).length = 14 := rfl

/-- Three headers, written one behind the other over bytes that are there. -/
theorem store_headers {eth ip udp f₁ f₂ f₃ rest : Bytes}
    (hdata : m.data = f₁ ++ (f₂ ++ (f₃ ++ rest)))
    (heth : eth.length = etherHdrLen) (hip : ip.length = ipv4HdrLen) (hudp : udp.length = udpHdrLen)
    (h₁ : f₁.length = etherHdrLen) (h₂ : f₂.length = ipv4HdrLen) (h₃ : f₃.length = udpHdrLen) :
    (((m.store 0 eth).store etherHdrLen ip).store (etherHdrLen + ipv4HdrLen) udp).data =
      eth ++ (ip ++ (udp ++ rest)) := by
  have hfirst : (m.store 0 eth).data = eth ++ (f₂ ++ (f₃ ++ rest)) :=
    Mbuf.store_front hdata (heth.trans h₁.symm)
  have hsecond : ((m.store 0 eth).store etherHdrLen ip).data = (eth ++ ip) ++ (f₃ ++ rest) := by
    rw [List.append_assoc]
    exact Mbuf.store_middle hfirst heth (hip.trans h₂.symm)
  have hthird := Mbuf.store_middle hsecond (by rw [List.length_append, heth, hip])
    (hudp.trans h₃.symm)
  rw [hthird, List.append_assoc]

/-- Behind the outer headers, the copy is found 28 bytes behind the new front. -/
theorem readAt_buffer {eth ip udp rest : Bytes} (hdata : m.data = eth ++ (ip ++ (udp ++ rest)))
    (heth : eth.length = etherHdrLen) (hip : ip.length = ipv4HdrLen)
    (hudp : udp.length = udpHdrLen) (hrest : 2 ≤ rest.length) :
    (buffer m).readAt (m.headroom.length + 28) ivInPacketSize =
      ip.drop 14 ++ udp ++ rest.take 2 := by
  have hbuffer : buffer m = (m.headroom ++ (eth ++ ip.take 14)) ++
      ((ip.drop 14 ++ udp ++ rest.take 2) ++ (rest.drop 2 ++ m.tailroom)) := by
    have hsplit : ip = ip.take 14 ++ ip.drop 14 := (List.take_append_drop 14 ip).symm
    have hrestSplit : rest = rest.take 2 ++ rest.drop 2 := (List.take_append_drop 2 rest).symm
    rw [buffer, Mbuf.region, hdata]
    nth_rewrite 1 [hsplit, hrestSplit]
    simp only [List.append_assoc]
  rw [hbuffer]
  refine Bytes.readAt_middle ?_ ?_
  · simp only [List.length_append, List.length_take, heth, hip]
    rfl
  · simp only [List.length_append, List.length_take, List.length_drop, hip, hudp,
      Nat.min_eq_left hrest]
    rfl

/-- A block that is written behind the headers is what a read finds there, also when the
Ethernet type is written after it. -/
theorem load_store_store {hdrs old bs rest : Bytes} (hdata : m.data = hdrs ++ (old ++ rest))
    (hhdrs : hdrs.length = wireIvAt) (hold : old.length = ivInPacketSize)
    (hbs : bs.length = ivInPacketSize) (etherType : ℕ) :
    ((m.store wireIvAt bs).store 12 (be16 etherType)).load wireIvAt ivInPacketSize = bs := by
  have hbefore : 12 + (be16 etherType).length ≤ wireIvAt := by
    rw [length_be16]
    decide
  have hwritten := Mbuf.store_middle hdata hhdrs (hbs.trans hold.symm)
  rw [Mbuf.load_store_of_le hbefore, Mbuf.load_middle hwritten hhdrs hbs]

/-- The copy of the IV as it is on the wire: the ends of the headers, and what these leave. -/
theorem load_copied {eth ip udp left data : Bytes}
    (hdata : m.data = eth ++ (ip ++ (udp ++ (left ++ data)))) (heth : eth.length = etherHdrLen)
    (hip : ip.length = ipv4HdrLen) (hudp : udp.length = udpHdrLen) (hleft : left.length = 2)
    (hlen : 14 ≤ data.length) (etherType : ℕ) :
    ((m.store wireIvAt ((buffer m).readAt (m.headroom.length + 28) ivInPacketSize)).store 12
        (be16 etherType)).load wireIvAt ivInPacketSize = ip.drop 14 ++ udp ++ left := by
  obtain ⟨d, rest, rfl, hd⟩ := Bytes.exists_front hlen
  have hread := readAt_buffer hdata heth hip hudp (by rw [List.length_append, hleft]; omega)
  rw [List.take_left' hleft] at hread
  have hsplit : m.data = (eth ++ (ip ++ udp)) ++ ((left ++ d) ++ rest) := by
    rw [hdata]
    simp only [List.append_assoc]
  have hhdrs : (eth ++ (ip ++ udp)).length = wireIvAt := by
    simp only [List.length_append, heth, hip, hudp]
    rfl
  have hold : (left ++ d).length = ivInPacketSize := by
    rw [List.length_append, hleft, hd]
    rfl
  rw [load_store_store hsplit hhdrs hold Bytes.length_readAt, hread]

/-- **What is copied as the IV**: the ends of the outer headers, and the two bytes of the kept
IV that these leave. -/
theorem load_of_tunnelEncap (hlen : etherHdrLen ≤ m.pktLen)
    (h : tunnelEncap ipv4Cksum (m.headroom.length - ivInPacketSize) m = some wire) :
    ipv4HdrLen + udpHdrLen + ivInPacketSize ≤ m.headroom.length ∧
      wire.load wireIvAt ivInPacketSize =
        overIv (m.pktLen - etherHdrLen) ++ m.headroom.drop (m.headroom.length - 2) := by
  have hpkt : m.pktLen < 2 ^ 16 := m.length_data_lt
  have hinner : (m.pktLen + 2 ^ 16 - etherHdrLen) % 2 ^ 16 = m.pktLen - etherHdrLen := by
    omega
  simp only [tunnelEncap, hinner] at h
  split at h
  · cases h
  next m₁ hm₁ =>
    have hroom := (Mbuf.of_prepend hm₁).1
    refine ⟨hroom, ?_⟩
    have hsize : ipv4HdrLen + udpHdrLen + ivInPacketSize = 44 := rfl
    -- The 44 bytes before the packet, as the headers and the end of the IV cover them.
    obtain ⟨pre, front, hhead, hpre⟩ := Bytes.exists_front (l := m.headroom)
      (n := m.headroom.length - 44) (by omega)
    have hfront : front.length = 44 := by
      have hlength := congrArg List.length hhead
      rw [List.length_append] at hlength
      omega
    obtain ⟨f₁, front₁, rfl, h₁⟩ := Bytes.exists_front (l := front) (n := 14) (by omega)
    obtain ⟨f₂, front₂, rfl, h₂⟩ := Bytes.exists_front (l := front₁) (n := 20)
      (by rw [List.length_append] at hfront; omega)
    obtain ⟨f₃, f₄, rfl, h₃⟩ := Bytes.exists_front (l := front₂) (n := 8)
      (by simp only [List.length_append] at hfront; omega)
    obtain ⟨hhead₁, hdata₁, -⟩ := Mbuf.of_prepend_append hm₁ hhead (by rw [hsize, hfront])
    have h₄ : f₄.length = 2 := by
      simp only [List.length_append] at hfront
      omega
    rw [List.append_assoc, List.append_assoc, List.append_assoc] at hdata₁
    have heth : (m.load 0 etherHdrLen).length = etherHdrLen := Bytes.length_readAt
    have hip := length_outerIpHdr ipv4Cksum (m.pktLen - etherHdrLen)
    have hudp := length_outerUdpHdr (m.pktLen - etherHdrLen)
    have hdata₂ := store_headers hdata₁ heth hip hudp h₁ h₂ h₃
    have hat : m.headroom.length - ivInPacketSize = m₁.headroom.length + 28 := by
      have hiv : ivInPacketSize = 16 := rfl
      rw [hhead₁, hpre, hiv]
      omega
    have hlast : m.headroom.drop (m.headroom.length - 2) = f₄ := by
      have hsplit : m.headroom = (pre ++ (f₁ ++ (f₂ ++ f₃))) ++ f₄ := by
        rw [hhead]
        simp only [List.append_assoc]
      rw [hsplit, List.length_append, h₄, Nat.add_sub_cancel, List.drop_left]
    rw [hat] at h
    cases h
    rw [hlast, ← drop_outerIpHdr ipv4Cksum]
    exact load_copied hdata₂ heth hip hudp h₄ hlen etherTypeIpv4

end Wire

section LanFrame

variable {Key : Type} {cp : CryptoParams Key} {device : CryptoOp Key → Bytes}
  {ipv4Cksum : Bytes → UInt16} {authDigestLength : ℕ} {rand : UInt64 × UInt64} {m wire : Mbuf}
  {op op' : CryptoOp Key}

/-- The IV of the operation and the one on the wire: they have the last two bytes in common. -/
theorem lanFrame_ivs (hcipher : cp.chain.doCipher = true) (henc : cp.isEncrypt = true)
    (h : lanFrame ipv4Cksum cp device authDigestLength rand m op = some (op', wire)) :
    op'.priv.read 0 ivInPacketSize = generatePerPktIv rand ∧
      wire.load wireIvAt ivInPacketSize =
        overIv (enqueuedLen cp m - etherHdrLen) ++ (generatePerPktIv rand).drop 14 := by
  have hsize : ipv4HdrLen + udpHdrLen + ivInPacketSize = 44 := rfl
  have hivSize : ivInPacketSize = 16 := rfl
  have hivLen : (generatePerPktIv rand).length = 16 := length_generatePerPktIv rand
  unfold lanFrame at h
  split at h
  · cases h
  next op₁ henqueue =>
    obtain ⟨hlen, hiv, m₁, hsrc, hpktLen, hhead⟩ := enqueue_spec rand [] hcipher henc henqueue
    rw [hsrc] at h
    obtain ⟨wire', hwire, heq⟩ := Option.map_eq_some_iff.mp h
    cases heq
    refine ⟨hiv, ?_⟩
    have hlen₁ : etherHdrLen ≤ (m₁.store 0 (device op')).pktLen := by
      rw [Mbuf.pktLen_store, hpktLen, enqueuedLen]
      omega
    simp only [dequeue, l2fwdSimpleForward, hcipher, and_self, if_true] at hwire
    obtain ⟨hroom, hload⟩ := load_of_tunnelEncap hlen₁ hwire
    rw [Mbuf.store_headroom, hhead, length_stashIv_headroom] at hroom
    have hfits : (generatePerPktIv rand).length ≤ m.headroom.length := by omega
    have hlast : m₁.headroom.drop (m₁.headroom.length - 2) = (generatePerPktIv rand).drop 14 := by
      have hat : m.headroom.length - 2 =
          (m.headroom.take (m.headroom.length - (generatePerPktIv rand).length)).length + 14 := by
        rw [List.length_take]
        omega
      rw [hhead, length_stashIv_headroom, stashIv_headroom hfits, hat,
        List.drop_length_add_append]
    rw [hload, Mbuf.pktLen_store, hpktLen, Mbuf.store_headroom, hlast]

/-- **The IV on the wire** is that of the operation exactly when the generated IV begins as the
outer headers end. -/
theorem wireIv_eq_iff (hcipher : cp.chain.doCipher = true) (henc : cp.isEncrypt = true)
    (h : lanFrame ipv4Cksum cp device authDigestLength rand m op = some (op', wire)) :
    wire.load wireIvAt ivInPacketSize = op'.priv.read 0 ivInPacketSize ↔
      (generatePerPktIv rand).take 14 = overIv (enqueuedLen cp m - etherHdrLen) := by
  obtain ⟨hiv, hwire⟩ := lanFrame_ivs hcipher henc h
  rw [hiv, hwire]
  constructor
  · intro heq
    rw [← heq, List.take_left' (length_overIv _)]
  · intro heq
    rw [← heq, List.take_append_drop]

end LanFrame

/-- A frame of one block with the headroom that the tunnel takes. -/
def oneBlock : Mbuf := ⟨List.replicate 44 0, List.replicate 30 0, [], by decide⟩

/-- The frame on the wire, from a device that leaves the packet as it is. -/
theorem oneBlock_sent : ∃ op wire,
    lanFrame (fun _ => 0) (aesCbcBox true) (fun _ => []) 0 (0, 0) oneBlock (.alloc fun _ => 0) =
      some (op, wire) :=
  ⟨_, _, rfl⟩

theorem wireIv_eq_iff_oneBlock : ∃ op wire,
    lanFrame (fun _ => 0) (aesCbcBox true) (fun _ => []) 0 (0, 0) oneBlock (.alloc fun _ => 0) =
        some (op, wire) ∧
      (wire.load wireIvAt ivInPacketSize = op.priv.read 0 ivInPacketSize ↔
        (generatePerPktIv (0, 0)).take 14 =
          overIv (enqueuedLen (aesCbcBox true) oneBlock - etherHdrLen)) := by
  obtain ⟨op, wire, h⟩ := oneBlock_sent
  exact ⟨op, wire, h, wireIv_eq_iff rfl rfl h⟩

/-- The IV on the wire is not the one that the device has used. -/
theorem oneBlock_wireIv : ∃ op wire,
    lanFrame (fun _ => 0) (aesCbcBox true) (fun _ => []) 0 (0, 0) oneBlock (.alloc fun _ => 0) =
        some (op, wire) ∧
      wire.load wireIvAt ivInPacketSize =
        [0, 1, 10, 0, 0, 2, 6, 165, 6, 165, 0, 40, 0, 0, 0, 0] ∧
      wire.load wireIvAt ivInPacketSize ≠ op.priv.read 0 ivInPacketSize := by
  obtain ⟨op, wire, h⟩ := oneBlock_sent
  obtain ⟨hiv, hwire⟩ := lanFrame_ivs rfl rfl h
  refine ⟨op, wire, h, hwire.trans (by decide), ?_⟩
  rw [hiv, hwire]
  decide

end SecureWan.TunnelMode
