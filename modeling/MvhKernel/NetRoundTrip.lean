-- What is built is parsed back.
import MvhKernel.NetBounds

open flat_memory (Mem setByte setByte_same setByte_ne fill fill_inside copy copy_inside copy_outside shift shift_apply Buffer)
open big_endian ones_complement

namespace mvh.net

/-- The second memory begins with the first `n` bytes of the first one. -/
def Begins (n : Nat) (m m' : Mem) : Prop := ∀ i < n, m' i = m i

section
variable {n : Nat} {m m' : Mem}

theorem Begins.load16 (h : Begins n m m') {a : Nat} (ha : a + 2 ≤ n) : load16 m' a = load16 m a :=
  load16_congr fun i _ => h (a + i) (by omega)

theorem Begins.load32 (h : Begins n m m') {a : Nat} (ha : a + 4 ≤ n) : load32 m' a = load32 m a :=
  load32_congr fun i _ => h (a + i) (by omega)

theorem Begins.write (h : Begins n m m') {k : Nat} {m2 : Mem} (hb : ∀ i < n, m2 i = m' i)
    (hf : ∀ i < k, m2 (n + i) = m (n + i)) : Begins (n + k) m m2 := by
  intro i hi
  by_cases hlt : i < n
  · rw [hb i hlt, h i hlt]
  grind [Nat.exists_eq_add_of_le]

theorem Begins.setByte (h : Begins n m m') : Begins (n + 1) m (setByte m' n (m n)) :=
  h.write (fun i hi => setByte_ne _ _ _ (by omega)) fun i hi => by
    obtain rfl : i = 0 := by omega
    exact setByte_same _ _ _

theorem Begins.store16 (h : Begins n m m') : Begins (n + 2) m (store16 m' n (big_endian.load16 m n)) :=
  h.write (fun _ hi => store16_outside _ _ (Or.inl hi)) fun _ hi => store16_load16 _ _ _ _ hi

theorem Begins.store32 (h : Begins n m m') : Begins (n + 4) m (store32 m' n (big_endian.load32 m n)) :=
  h.write (fun _ hi => store32_outside _ _ (Or.inl hi)) fun _ hi => store32_load32 _ _ _ _ hi

theorem Begins.copyMac (h : Begins n m m') :
    Begins (n + 6) m (copy m' n (Buffer.ofMem 6 (shift m n)).bytes 0 6) := by
  refine h.write (fun _ hi => copy_outside _ _ (Or.inl hi)) fun i hi => ?_
  rw [copy_inside _ _ (by omega) (by omega), Nat.zero_add, Nat.add_sub_cancel_left,
    Buffer.bytes_ofMem _ hi, shift_apply]

theorem Begins.mono (h : Begins n m m') {k : Nat} (hk : k ≤ n) : Begins k m m' :=
  fun i hi => h i (by omega)

end

theorem mac_of_bytes {p : Mem} {a : Nat} {mac : Mac} (h : ∀ i < 6, p (a + i) = mac.bytes i) :
    Buffer.ofMem 6 (shift p a) = mac := by
  rw [← Buffer.ofMem_bytes mac]
  exact Buffer.ofMem_congr h

/-! ## Checksums -/

theorem toNat_net_checksum_loop (bytes : Mem) (n a : Nat) (sum : UInt32) :
    (net_checksum_loop bytes n a sum).toNat = (sum.toNat + wordSum bytes n a) % 2 ^ 32 := by
  induction n, a, sum using net_checksum_loop.induct bytes with
  | case1 a sum => simp [net_checksum_loop, wordSum]
  | case2 a sum =>
    have := (bytes a).toNat_lt
    simp only [net_checksum_loop, wordSum, UInt32.toNat_add, UInt32.toNat_shiftLeft,
      UInt8.toNat_toUInt32, UInt32.toNat_ofNat, Nat.shiftLeft_eq, Nat.reducePow, Nat.reduceMod]
    omega
  | case3 n a sum ih => grind [net_checksum_loop, wordSum, UInt32.toNat_add, UInt16.toNat_toUInt32]

theorem toNat_complement {s : UInt32} (h : s.toNat ≤ 65535) :
    ((~~~ s).toUInt16).toNat = 65535 - s.toNat := by
  rw [UInt32.toNat_toUInt16, UInt32.toNat_not]
  grind

theorem toNat_complement_carryLoop (sum : UInt32) :
    ((~~~ carryLoop 2 sum).toUInt16).toNat = 65535 - endAround sum.toNat := by
  have hs := toNat_carryLoop sum
  grind [toNat_complement, endAround_le]

theorem toNat_net_checksum_mod (bytes : Mem) (s : UInt32) :
    (net_checksum bytes s).toNat = 65535 - endAround (wordSum bytes s.toNat 0 % 2 ^ 32) := by
  unfold net_checksum
  rw [toNat_complement_carryLoop, toNat_net_checksum_loop, UInt32.toNat_zero, Nat.zero_add]

theorem toNat_net_checksum (bytes : Mem) (s : UInt32) (h : s.toNat ≤ 65536) :
    (net_checksum bytes s).toNat = 65535 - endAround (wordSum bytes s.toNat 0) := by
  have hle := wordSum_le bytes s.toNat 0
  rw [toNat_net_checksum_mod, Nat.mod_eq_of_lt (by omega)]

/-! ## Ethernet -/

theorem ethernet_comes_back (bytes frame : Mem) (destination source : Mac) (ethertype : UInt16)
    (payload : Option Mem) (n s : UInt32) (hsz : 14 ≤ s.toNat)
    (hf : Begins 14 (copy_bytes (ethernetHeader bytes destination source ethertype) 14 payload n)
      frame) :
    net_ethernet_parse (some frame) s true = some
      { destination, source, ethertype, payload := shift frame 14, payload_size := s - 14 } := by
  have hh : Begins 14 (ethernetHeader bytes destination source ethertype) frame := by
    intro i hi
    rw [hf i hi, copy_bytes_outside _ _ (Or.inl hi)]
  have hd : Buffer.ofMem 6 frame = destination := by
    rw [← Buffer.ofMem_bytes destination]
    refine Buffer.ofMem_congr fun i hi => ?_
    rw [hh i (by omega)]
    simp (disch := omega) [ethernetHeader, store16_outside, copy_outside, copy_inside]
  have hs : Buffer.ofMem 6 (shift frame 6) = source := by
    refine mac_of_bytes fun i hi => ?_
    rw [hh (6 + i) (by omega)]
    simp (disch := omega) [ethernetHeader, store16_outside, copy_inside]
  have he : load16 frame 12 = ethertype := by
    rw [hh.load16 (by omega), ethernetHeader, load16_store16]
  refine (if_neg ?_).trans ?_
  · exact not_or.mpr ⟨Bool.noConfusion, UInt32.not_lt.mpr (UInt32.le_iff_toNat_le.mpr hsz)⟩
  rw [hd, hs, he]
  rfl

/-! ## IPv4 -/

section
variable (bytes : Mem) (source destination : UInt32) (protocol ttl : UInt8) (identification : UInt16)
  (total : UInt32)

theorem ipv4Header_fields {hd : Mem}
    (h : ipv4Header bytes source destination protocol ttl identification total = hd) :
    hd 0 = 0x45 ∧ hd 1 = 0 ∧ load16 hd 2 = total.toUInt16 ∧
      load16 hd 4 = identification ∧ load16 hd 6 = 0x4000 ∧ hd 8 = ttl ∧
      hd 9 = protocol ∧ load16 hd 10 = 0 ∧ load32 hd 12 = source ∧
      load32 hd 16 = destination := by
  have hz : ∀ i < 20, fill bytes 0 NET_IPV4_HEADER_MIN.toNat 0 i = 0 :=
    fun i hi => fill_inside bytes 0 (Nat.zero_le i) (Nat.lt_of_lt_of_eq hi (by decide))
  have hw : load16 (fill bytes 0 NET_IPV4_HEADER_MIN.toNat 0) 10 = 0 := by simp [hz, load16]
  subst h
  unfold ipv4Header
  simp (disch := omega) [store32_outside, store16_outside, setByte_ne, load16_store32_ne,
    load16_store16_ne, load16_setByte_ne, load32_store32_ne, hz 1 (by decide), hw]

theorem endAround_ipv4Checked {hd : Mem} (h10 : load16 hd 10 = 0) :
    endAround (wordSum (ipv4Checked hd) 20 0) = 65535 := by
  have hs := wordSum_store16 hd (net_checksum hd NET_IPV4_HEADER_MIN) 20 0 5 (by decide)
  rw [toNat_net_checksum _ _ (by decide), show 0 + 2 * 5 = 10 from rfl, h10, UInt16.toNat_zero,
    Nat.add_zero] at hs
  have hsm : wordSum (ipv4Checked hd) 20 0 =
      wordSum hd 20 0 + (65535 - endAround (wordSum hd 20 0)) := hs
  rw [hsm, endAround_complement]

theorem ipv4_comes_back (packet : Mem) (payload : Option Mem) (n s : UInt32)
    (ht : total.toNat = 20 + n.toNat) (hsh : total.toNat ≤ 65535) (hs : total ≤ s)
    (hp : Begins 20 (copy_bytes (ipv4Checked (ipv4Header bytes source destination protocol ttl
      identification total)) 20 payload n) packet) :
    net_ipv4_parse (some packet) s true = some
      { header_size := 20, dscp_ecn := 0, total_size := total.toUInt16, identification,
        fragment := 0x4000, ttl, protocol, source, destination, payload := shift packet 20,
        payload_size := n } := by
  generalize hhd : ipv4Header bytes source destination protocol ttl identification total = header
    at hp
  obtain ⟨h0, h1, h2, h4, h6, h8, h9, h10, h12, h16⟩ := ipv4Header_fields _ _ _ _ _ _ _ hhd
  have hc : Begins 20 (ipv4Checked header) packet := by
    intro i hi
    rw [hp i hi, copy_bytes_outside _ _ (Or.inl hi)]
  have hb : ∀ i < 10, packet i = header i := by
    intro i hi
    rw [hc i (by omega), ipv4Checked, store16_outside _ _ (Or.inl hi)]
  have hw : load16 packet 2 = total.toUInt16 ∧ load16 packet 4 = identification ∧
      load16 packet 6 = 0x4000 ∧ load32 packet 12 = source ∧ load32 packet 16 = destination := by
    simp (disch := omega) only [hc.load16, hc.load32, ipv4Checked, load16_store16_ne,
      load32_store16_ne, h2, h4, h6, h12, h16, and_self]
  have hsm : net_checksum packet 20 = 0 := by
    have hsa : wordSum packet 20 0 = wordSum (ipv4Checked header) 20 0 :=
      wordSum_congr _ _ fun i _ hi => hc i (by omega)
    grind [UInt16.toNat_inj, toNat_net_checksum, endAround_ipv4Checked]
  obtain ⟨w2, w4, w6, w12, w16⟩ := hw
  have ht1 : total.toUInt16.toUInt32 = total := by grind
  have hr : total - 20 = n := by grind
  have hsize' := UInt32.le_iff_toNat_le.mp hs
  unfold net_ipv4_parse
  simp only [hb 0 (by decide), hb 1 (by decide), hb 8 (by decide), hb 9 (by decide), h0, h1,
    h8, h9, w2, w4, w6, w12, w16, ht1]
  have hh : ((0x45 : UInt8) &&& 0x0F).toUInt32 * 4 = 20 := by decide
  rw [hh, if_neg, if_neg, hr]
  · rfl
  · simp only [gt_iff_lt, not_or, UInt32.lt_iff_toNat_lt, UInt32.reduceToNat, hsm, ne_eq,
      not_not, and_true]
    omega
  · simp only [not_or, UInt32.lt_iff_toNat_lt]
    refine ⟨Bool.noConfusion, ?_, by decide, by decide⟩
    show ¬ s.toNat < 20
    omega

end

/-! ## UDP -/

theorem udp_comes_back (bytes packet : Mem) (source_ip destination_ip : UInt32)
    (source_port destination_port : UInt16) (payload : Option Mem) (total n size : UInt32)
    (htotal : total.toNat = 8 + n.toNat) (hshort : total.toNat ≤ 65535) (hsize : total ≤ size)
    (hpacket : Begins 8 (udpChecked source_ip destination_ip (copy_bytes (udpHeader bytes source_port
      destination_port total) 8 payload n) total) packet) :
    net_udp_parse (some packet) size true = some
      { source_port, destination_port, payload := shift packet 8, payload_size := n } := by
  have hheader : ∀ a, a + 2 ≤ 6 →
      load16 packet a = load16 (udpHeader bytes source_port destination_port total) a := by
    intro a ha
    rw [hpacket.load16 (by omega), udpChecked, load16_store16_ne _ _ (Or.inl ha)]
    exact load16_congr fun i hi => copy_bytes_outside _ _ (by omega)
  have hwords : load16 packet 0 = source_port ∧ load16 packet 2 = destination_port ∧
      load16 packet 4 = total.toUInt16 := by
    simp (disch := omega) only [hheader, udpHeader, load16_store16_ne, load16_store16, and_self]
  obtain ⟨w0, w2, w4⟩ := hwords
  have htotal16 : total.toUInt16.toUInt32 = total := by grind
  have hrest : total - 8 = n := by grind
  have hsize' := UInt32.le_iff_toNat_le.mp hsize
  unfold net_udp_parse
  simp only [w0, w2, w4, htotal16]
  rw [if_neg, if_neg, hrest]
  · grind
  grind

/-! ## ARP -/

section
variable (bytes : Mem) (operation : UInt16) (sender_mac target_mac : Mac) (sender_ip target_ip : UInt32)

theorem arpBytes_fields {p : Mem}
    (h : arpBytes bytes operation sender_mac sender_ip target_mac target_ip = p) :
    load16 p 0 = 1 ∧ load16 p 2 = NET_ETHERTYPE_IPV4 ∧ p 4 = 6 ∧ p 5 = 4 ∧
      load16 p 6 = operation ∧ Buffer.ofMem 6 (shift p 8) = sender_mac ∧
      load32 p 14 = sender_ip ∧ Buffer.ofMem 6 (shift p 18) = target_mac ∧
      load32 p 24 = target_ip := by
  subst h
  unfold arpBytes
  simp (disch := omega) only [store32_outside, store16_outside, setByte_same, setByte_ne, copy_outside,
    load16_store16, load16_store32_ne, load16_store16_ne, load16_setByte_ne, load16_copy_ne,
    load32_store32, load32_store32_ne, load32_copy_ne, true_and, and_true]
  constructor
  · apply mac_of_bytes
    grind
  · apply mac_of_bytes
    grind

theorem arp_comes_back (c s : UInt32) (hc : 28 ≤ c) (hs : 28 ≤ s)
    (ho : operation = 1 ∨ operation = 2) :
    ∃ p, net_arp_build (some bytes) c operation (some sender_mac) sender_ip
        (some target_mac) target_ip = (28, some p) ∧
      net_arp_parse (some p) s true =
        some { operation, sender_mac, sender_ip, target_mac, target_ip } := by
  have hk : ¬ (operation ≠ 1 ∧ operation ≠ 2) := by grind
  refine ⟨_, if_neg (not_or.mpr ⟨UInt32.not_lt.mpr hc, hk⟩), ?_⟩
  generalize hp : arpBytes bytes operation sender_mac sender_ip target_mac target_ip = p
  obtain ⟨h0, h2, h4, h5, h6, h8, h14, h18, h24⟩ := arpBytes_fields _ _ _ _ _ _ hp
  unfold net_arp_parse
  simp only [h0, h2, h4, h5, h6, h8, h14, h18, h24]
  rw [if_neg, if_neg hk]
  simp only [not_or, not_not, ne_eq, and_true]
  exact ⟨Bool.noConfusion, UInt32.not_lt.mpr hs⟩

end

theorem net_arp_parse_eq_some {p : Mem} {s : UInt32} {arp : ArpPacket}
    (h : net_arp_parse (some p) s true = some arp) :
    load16 p 0 = 1 ∧ load16 p 2 = NET_ETHERTYPE_IPV4 ∧ p 4 = 6 ∧ p 5 = 4 ∧
      (load16 p 6 = 1 ∨ load16 p 6 = 2) ∧
      arp = { operation := load16 p 6, sender_mac := Buffer.ofMem 6 (shift p 8),
              sender_ip := load32 p 14, target_mac := Buffer.ofMem 6 (shift p 18),
              target_ip := load32 p 24 } := by
  unfold net_arp_parse at h
  simp only [ne_eq] at h
  grind

theorem arp_is_rebuilt {p : Mem} {s : UInt32} {arp : ArpPacket}
    (h : net_arp_parse (some p) s true = some arp) (bytes : Mem) (c : UInt32)
    (hc : 28 ≤ c) :
    ∃ packet', net_arp_build (some bytes) c arp.operation (some arp.sender_mac) arp.sender_ip
        (some arp.target_mac) arp.target_ip = (28, some packet') ∧ Begins 28 p packet' := by
  obtain ⟨h0, h2, h4, h5, h6, rfl⟩ := net_arp_parse_eq_some h
  have hk : ¬ (load16 p 6 ≠ 1 ∧ load16 p 6 ≠ 2) := by grind
  refine ⟨_, if_neg (not_or.mpr ⟨UInt32.not_lt.mpr hc, hk⟩), ?_⟩
  -- The fields are written one after the other, without a gap.
  have hs : Begins 0 p bytes := fun i hi => absurd hi (Nat.not_lt_zero i)
  have hl := ((hs.store16.store16).setByte).setByte
  rw [h0, h2, h4, h5] at hl
  exact hl.store16.copyMac.store32.copyMac.store32

/-! ## The whole stack -/

theorem Begins.payload {a : Nat} {target d p : Mem} {n : UInt32}
    (h : Begins (a + n.toNat) (copy_bytes target a (some d) n) p) :
    Begins n.toNat d (shift p a) := by
  intro i hi
  rw [shift_apply, h (a + i) (by omega), copy_bytes_inside _ _ (by omega) (by omega),
    Nat.add_sub_cancel_left]

theorem toNat_header_add {hd n : UInt32} {k : Nat} (hk : hd.toNat = k) (hn : k + n.toNat < 2 ^ 32) :
    (hd + n).toNat = k + n.toNat := by
  rw [UInt32.toNat_add, hk, Nat.mod_eq_of_lt hn]

theorem toInt_of_toNat {total : UInt32} {k : Nat} (hk : total.toNat = k) (hlt : k < 2 ^ 31) :
    toInt total = k := by
  rw [toInt_eq, hk, if_pos hlt]

/-- What a sender puts into the three headers, as the builders accept it. -/
structure Message where
  destination : Mac
  source : Mac
  ethertype : UInt16
  source_ip : UInt32
  destination_ip : UInt32
  ttl : UInt8
  identification : UInt16
  source_port : UInt16
  destination_port : UInt16
  payload : Option Mem
  payload_size : UInt32
  ttl_ne : ttl ≠ 0
  source_port_ne : source_port ≠ 0
  destination_port_ne : destination_port ≠ 0
  payload_given : ¬ (payload_size ≠ 0 ∧ payload.isNone)
  payload_short : payload_size.toNat ≤ 65507

/-- The parsers accept the frame, one layer after the other, and give back the message. -/
def Delivers (message : Message) (frame : Mem) (size : UInt32) : Prop :=
  ∃ ethernet ipv4 udp,
    net_ethernet_parse (some frame) size true = some ethernet ∧
    net_ipv4_parse (some ethernet.payload) ethernet.payload_size true = some ipv4 ∧
    net_udp_parse (some ipv4.payload) ipv4.payload_size true = some udp ∧
    (ethernet.destination = message.destination ∧ ethernet.source = message.source ∧
      ethernet.ethertype = message.ethertype) ∧
    (ipv4.source = message.source_ip ∧ ipv4.destination = message.destination_ip ∧
      ipv4.protocol = NET_PROTOCOL_UDP ∧ ipv4.ttl = message.ttl ∧
      ipv4.identification = message.identification) ∧
    (udp.source_port = message.source_port ∧ udp.destination_port = message.destination_port ∧
      udp.payload_size = message.payload_size ∧
      ∀ data, message.payload = some data → ∀ i < message.payload_size.toNat, udp.payload i = data i)

theorem message_delivered (ms : Message) (ud ib fr : Mem)
    {u ic f : UInt32}
    (hu1 : 8 + ms.payload_size.toNat ≤ u.toNat)
    (hip : 28 + ms.payload_size.toNat ≤ ic.toNat)
    (hfm : 42 + ms.payload_size.toNat ≤ f.toNat) :
    ∃ udp ip fm,
      net_udp_build (some ud) u ms.source_ip ms.destination_ip
        ms.source_port ms.destination_port ms.payload ms.payload_size =
          (((8 + ms.payload_size.toNat : Nat) : Int), some udp) ∧
      net_ipv4_build (some ib) ic ms.source_ip ms.destination_ip
        NET_PROTOCOL_UDP ms.ttl ms.identification (some udp) (8 + ms.payload_size) =
          (((28 + ms.payload_size.toNat : Nat) : Int), some ip) ∧
      net_ethernet_build (some fr) f (some ms.destination)
        (some ms.source) ms.ethertype (some ip) (28 + ms.payload_size) =
          (((42 + ms.payload_size.toNat : Nat) : Int), some fm) ∧
      ∀ p size, Begins (42 + ms.payload_size.toNat) fm p →
        42 + ms.payload_size.toNat ≤ size.toNat → Delivers ms p size := by
  obtain ⟨destination, source, e, s, d, ttl, identification, sr,
    destination_port, payload, n, ht, hs, hds, hp, hsh⟩ := ms
  dsimp only at *
  have hg (m : Mem) (k : UInt32) : ¬ (k ≠ 0 ∧ (some m).isNone) := by simp
  have h8 : (8 + n).toNat = 8 + n.toNat := toNat_header_add rfl (by omega)
  have h28 : (28 + n).toNat = 28 + n.toNat := toNat_header_add rfl (by omega)
  have h42 : (NET_ETHERNET_HEADER + (28 + n)).toNat = 42 + n.toNat := by
    rw [toNat_header_add (k := 14) rfl (by omega), h28]
    omega
  have hsm : NET_IPV4_HEADER_MIN + (8 + n) = 28 + n := (UInt32.add_assoc _ _ _).symm
  have hup : ¬ ((n ≠ 0 ∧ payload.isNone) ∨ 8 + n > 65535 ∨ u < 8 + n ∨
      sr = 0 ∨ destination_port = 0) := by grind
  have hig (m : Mem) : ¬ ((8 + n ≠ 0 ∧ (some m).isNone) ∨
      NET_IPV4_HEADER_MIN + (8 + n) > 65535 ∨ ic < NET_IPV4_HEADER_MIN + (8 + n) ∨ ttl = 0) := by
    grind
  have hfr (m : Mem) : ¬ ((28 + n ≠ 0 ∧ (some m).isNone) ∨
      f < NET_ETHERNET_HEADER + (28 + n)) := by grind
  have hud := net_udp_build_some ud s d hup
  have hil (m : Mem) := net_ipv4_build_some ib s d NET_PROTOCOL_UDP
    identification (hig m)
  have hf (m : Mem) := net_ethernet_build_some fr destination source e
    (hfr m)
  rw [toInt_of_toNat h8 (by omega)] at hud
  simp only [hsm, toInt_of_toNat h28 (by omega)] at hil
  simp only [toInt_of_toNat h42 (by omega)] at hf
  refine ⟨_, _, _, hud, hil _, hf _, ?_⟩
  intro fm size hb hsz
  -- Each layer's payload begins with the packet of the layer above it.
  have he := ethernet_comes_back _ _ _ _ _ _ _ size (by omega) (hb.mono (by omega))
  have hib := (hb.mono (by omega : 14 + (28 + n).toNat ≤ _)).payload
  have hr : 28 + n ≤ size - 14 := by
    have h14 : (14 : UInt32) ≤ size := UInt32.le_iff_toNat_le.mpr (by
      show 14 ≤ size.toNat
      omega)
    rw [UInt32.le_iff_toNat_le, UInt32.toNat_sub_of_le _ _ h14, h28]
    show _ ≤ size.toNat - 14
    omega
  have hi4 := ipv4_comes_back _ _ _ _ _ _ _ _ _ (8 + n) (size - 14) (by omega) (by omega) hr
    (hib.mono (by omega))
  have hu := (hib.mono (by omega : 20 + (8 + n).toNat ≤ _)).payload
  have hd := udp_comes_back _ _ _ _ _ _ _ _ n (8 + n) (by omega) (by omega) (UInt32.le_refl _)
    (hu.mono (by omega))
  refine ⟨_, _, _, he, hi4, hd, ⟨rfl, rfl, rfl⟩, ⟨rfl, rfl, rfl, rfl, rfl⟩, rfl, rfl, rfl, ?_⟩
  intro dt hdt i hi
  subst hdt
  dsimp only at hi ⊢
  rw [shift_apply, hu (8 + i) (by omega), udpChecked, store16_outside _ _ (by omega),
    copy_bytes_inside _ _ (by omega) (by omega), Nat.add_sub_cancel_left]

/-! ## What is built is what is parsed -/

/-- The stack and ARP, there and back. -/
theorem what_is_built_is_parsed :
    (∀ (message : Message) (udp_bytes ip_bytes frame_bytes : Mem)
      (udp_capacity ip_capacity frame_capacity : UInt32),
      8 + message.payload_size.toNat ≤ udp_capacity.toNat →
      28 + message.payload_size.toNat ≤ ip_capacity.toNat →
      42 + message.payload_size.toNat ≤ frame_capacity.toNat →
      ∃ udp ip frame,
        net_udp_build (some udp_bytes) udp_capacity message.source_ip message.destination_ip
          message.source_port message.destination_port message.payload message.payload_size =
            (((8 + message.payload_size.toNat : Nat) : Int), some udp) ∧
        net_ipv4_build (some ip_bytes) ip_capacity message.source_ip message.destination_ip
          NET_PROTOCOL_UDP message.ttl message.identification (some udp) (8 + message.payload_size) =
            (((28 + message.payload_size.toNat : Nat) : Int), some ip) ∧
        net_ethernet_build (some frame_bytes) frame_capacity (some message.destination)
          (some message.source) message.ethertype (some ip) (28 + message.payload_size) =
            (((42 + message.payload_size.toNat : Nat) : Int), some frame) ∧
        ∀ padded size, Begins (42 + message.payload_size.toNat) frame padded →
          42 + message.payload_size.toNat ≤ size.toNat → Delivers message padded size) ∧
    (∀ (arp : ArpPacket) (bytes : Mem) (capacity size : UInt32),
      arp.operation = 1 ∨ arp.operation = 2 → 28 ≤ capacity → 28 ≤ size →
      ∃ packet, net_arp_build (some bytes) capacity arp.operation (some arp.sender_mac) arp.sender_ip
          (some arp.target_mac) arp.target_ip = (28, some packet) ∧
        net_arp_parse (some packet) size true = some arp) ∧
    (∀ (packet bytes : Mem) (size capacity : UInt32) (arp : ArpPacket),
      net_arp_parse (some packet) size true = some arp → 28 ≤ capacity →
      ∃ packet', net_arp_build (some bytes) capacity arp.operation (some arp.sender_mac) arp.sender_ip
          (some arp.target_mac) arp.target_ip = (28, some packet') ∧ Begins 28 packet packet') := by
  refine ⟨?_, ?_, ?_⟩
  · intro message udp_bytes ip_bytes frame_bytes _ _ _ hudp hip hframe
    exact message_delivered message udp_bytes ip_bytes frame_bytes hudp hip hframe
  · intro arp bytes capacity size hoperation hcapacity hsize
    exact arp_comes_back bytes arp.operation arp.sender_mac arp.target_mac arp.sender_ip arp.target_ip
      capacity size hcapacity hsize hoperation
  · intro packet bytes size capacity arp hparse hcapacity
    exact arp_is_rebuilt hparse bytes capacity hcapacity

/-- Four bytes from port 40000 to port 7, in a frame with 18 bytes of padding, and
an ARP request that is parsed and built again. -/
theorem four_bytes_are_delivered :
    let mac : Mac := Buffer.ofMem 6 fun _ => 2
    let message : Message :=
      { destination := mac, source := mac, ethertype := NET_ETHERTYPE_IPV4, source_ip := 0x0A000202,
        destination_ip := 0x0A000203, ttl := 64, identification := 0x4D56, source_port := 40000,
        destination_port := 7, payload := some fun _ => 0x50, payload_size := 4, ttl_ne := by decide,
        source_port_ne := by decide, destination_port_ne := by decide, payload_given := by decide,
        payload_short := by decide }
    (∃ frame, Delivers message frame 64) ∧
      ∃ packet packet' arp, net_arp_parse (some packet) 28 true = some arp ∧
        net_arp_build (some fun _ => 0xEE) 28 arp.operation (some arp.sender_mac) arp.sender_ip
          (some arp.target_mac) arp.target_ip = (28, some packet') ∧ Begins 28 packet packet' := by
  intro mac message
  obtain ⟨hstack, harp, hrebuild⟩ := what_is_built_is_parsed
  obtain ⟨_, _, frame, _, _, _, hdelivers⟩ := hstack message (fun _ => 0) (fun _ => 0) (fun _ => 0) 12 32 46
    (by decide) (by decide) (by decide)
  obtain ⟨packet, _, hparse⟩ := harp ⟨1, mac, 0x0A000202, mac, 0x0A000203⟩ (fun _ => 0) 28 28
    (Or.inl rfl) (by decide) (by decide)
  obtain ⟨packet', hbuild, hbegins⟩ := hrebuild packet (fun _ => 0xEE) 28 28 _ hparse (by decide)
  exact ⟨⟨frame, hdelivers frame 64 (fun _ _ => rfl) (by decide)⟩, packet, packet', _, hparse, hbuild,
    hbegins⟩

end mvh.net
