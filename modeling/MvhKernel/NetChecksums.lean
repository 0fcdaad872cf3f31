-- The checksums of `net.c` against ones' complement arithmetic without a limit: what is
-- built checks out, what is changed in a header does not, and 32 bits lose a carry only
-- in packets that are longer than any that is built.
import MvhKernel.NetRoundTrip

open flat_memory (Mem setByte setByte_same setByte_ne)
open big_endian ones_complement

namespace mvh.net

/-! ## The checksum of a buffer -/

/-- The complement of the ones' complement sum of the words, which has no width. -/
def exactChecksum (bytes : Mem) (size : Nat) : UInt16 := ~~~ UInt16.ofNat (sumAround (words bytes size 0))

theorem toNat_exactChecksum (b : Mem) (s : Nat) :
    (exactChecksum b s).toNat = 65535 - endAround (wordSum b s 0) := by
  have hle := endAround_le (wordSum b s 0)
  grind [sumAround_words, UInt16.toNat_not, UInt16.toNat_ofNat', Nat.mod_eq_of_lt, exactChecksum]

/-- A carry that leaves the 32 bits is lost, and there are too few of them to make up for it. -/
theorem net_checksum_exact_iff (bytes : Mem) (size : UInt32) :
    net_checksum bytes size = exactChecksum bytes size.toNat ↔ wordSum bytes size.toNat 0 < 2 ^ 32 := by
  have hsize := size.toNat_lt
  have hsum := wordSum_le bytes size.toNat 0
  rw [← UInt16.toNat_inj, toNat_net_checksum_mod, toNat_exactChecksum]
  generalize wordSum bytes size.toNat 0 = sum at hsum
  have hle := endAround_le sum
  have hle' := endAround_le (sum % 2 ^ 32)
  have hmod := endAround_mod sum
  have hmod' := endAround_mod (sum % 2 ^ 32)
  constructor
  · intro heq
    omega
  · intro hlt
    rw [Nat.mod_eq_of_lt hlt]

theorem wordSum_ones (k a : Nat) : wordSum (fun _ => 0xFF) (2 * k) a = 65535 * k := by
  induction k generalizing a with
  | zero => rfl
  | succ k ih => grind [Nat.mul_succ, wordSum, toNat_load16]

/-- In 131076 bytes of ones the sum leaves the 32 bits. -/
theorem a_long_checksum_loses_a_carry :
    net_checksum (fun _ => 0xFF) 131076 = 1 ∧ exactChecksum (fun _ => 0xFF) 131076 = 0 := by
  constructor
  · rw [← UInt16.toNat_inj, toNat_net_checksum_mod, show (131076 : UInt32).toNat = 2 * 65538 from rfl, wordSum_ones]
    decide
  · rw [← UInt16.toNat_inj, toNat_exactChecksum, show 131076 = 2 * 65538 from rfl, wordSum_ones]
    decide

/-! ## Echo replies -/

theorem net_checksum_store16 (b : Mem) (s : UInt32) (k : Nat) (hk : 2 * k + 2 ≤ s.toNat)
    (hsz : s.toNat ≤ 65536) (hz : load16 b (2 * k) = 0) :
    net_checksum (store16 b (2 * k) (net_checksum b s)) s = 0 := by
  have hs := wordSum_store16 b (net_checksum b s) s.toNat 0 k hk
  rw [Nat.zero_add, hz, UInt16.toNat_zero, Nat.add_zero, toNat_net_checksum _ _ hsz] at hs
  grind [UInt16.toNat_inj, toNat_net_checksum, endAround_complement]

/-- A reply has type 0 and code 0, it checks out, and only its type and its checksum are new.
Without a reply nothing is new. -/
theorem echo_replies_check_out (packet : Option Mem) (size : UInt32) :
    ((net_icmp_echo_reply packet size).1 = 0 → size.toNat ≤ 65515 →
      ∃ bytes reply, packet = some bytes ∧ (net_icmp_echo_reply packet size).2 = some reply ∧
        reply 0 = 0 ∧ reply 1 = 0 ∧ net_checksum reply size = 0 ∧
        ∀ i, i ≠ 0 → i ≠ 2 → i ≠ 3 → reply i = bytes i) ∧
      ((net_icmp_echo_reply packet size).1 = -1 → (net_icmp_echo_reply packet size).2 = packet) := by
  unfold net_icmp_echo_reply
  rcases packet with _ | bytes
  · exact ⟨fun hzero => absurd hzero (by simp), fun _ => rfl⟩
  dsimp only
  by_cases hrefused : size < 8 ∨ bytes 0 ≠ 8 ∨ bytes 1 ≠ 0 ∨ net_checksum bytes size ≠ 0
  · rw [if_pos hrefused]
    exact ⟨fun hzero => absurd hzero (by simp), fun _ => rfl⟩
  rw [if_neg hrefused]
  rw [not_or, not_or, not_or, not_not, not_not, not_not] at hrefused
  obtain ⟨hshort, -, hcode, -⟩ := hrefused
  have hlong : 8 ≤ size.toNat := UInt32.le_iff_toNat_le.mp (UInt32.not_lt.mp hshort)
  refine ⟨fun _ hsize => ⟨bytes, _, rfl, rfl, ?_, ?_, ?_, ?_⟩, fun hfail => absurd hfail (by simp)⟩
  · rw [store16_outside _ _ (by omega), setByte_ne _ _ _ (by omega), setByte_ne _ _ _ (by omega), setByte_same]
  · rw [store16_outside _ _ (by omega), setByte_ne _ _ _ (by omega), setByte_ne _ _ _ (by omega),
      setByte_ne _ _ _ (by omega), hcode]
  · refine net_checksum_store16 _ size 1 (by omega) (by omega) ?_
    rw [← UInt16.toNat_inj, toNat_load16, setByte_ne _ _ _ (by omega), setByte_same, setByte_same]
    rfl
  · intro i h0 h2 h3
    rw [store16_outside _ _ (by omega), setByte_ne _ _ _ h3, setByte_ne _ _ _ h2, setByte_ne _ _ _ h0]

example : (net_icmp_echo_reply (some fun i => [8, 0, 0xE5, 0xCA, 0x12, 0x34, 0, 1].getD i 0) 8).1 = 0 := by
  decide

/-! ## Datagrams -/

/-- The words of the pseudo-header: both addresses, the protocol and the length. -/
def pseudoHeader (source_ip destination_ip size : UInt32) : List Nat :=
  [source_ip.toNat / 65536, source_ip.toNat % 65536, destination_ip.toNat / 65536, destination_ip.toNat % 65536,
    NET_PROTOCOL_UDP.toNat, size.toNat]

theorem pseudoHeader_lt (s d : UInt32) {sz : UInt32} (h : sz.toNat < 65536) :
    ∀ w ∈ pseudoHeader s d sz, w < 65536 := by
  have hs := s.toNat_lt
  have hd := d.toNat_lt
  have hp : NET_PROTOCOL_UDP.toNat < 65536 := by decide
  simp only [pseudoHeader, List.forall_mem_cons]
  grind

theorem wordSum_odd (m : Mem) (k a : Nat) :
    wordSum m (2 * k + 1) a = wordSum m (2 * k) a + 256 * (m (a + 2 * k)).toNat := by
  induction k generalizing a with
  | zero => simp [wordSum]
  | succ k ih =>
    have hp : a + 2 * (k + 1) = a + 2 + 2 * k := by omega
    grind [wordSum]

theorem toNat_udp_checksum_loop (udp : Mem) (k b a : Nat) (hb : b < 2) (sum : UInt32) :
    (udp_checksum_loop udp (2 * k + b) a sum).toNat = (sum.toNat + wordSum udp (2 * k) a) % 2 ^ 32 := by
  induction k generalizing a sum with
  | zero =>
    have hlt := sum.toNat_lt
    rcases (by omega : b = 0 ∨ b = 1) with rfl | rfl
    · simp only [udp_checksum_loop, wordSum]
      omega
    simp [udp_checksum_loop, wordSum]
  | succ k ih => grind [udp_checksum_loop, wordSum, UInt32.toNat_add, UInt16.toNat_toUInt32]

theorem toNat_pseudoHeader (sr d : UInt32) {sz : UInt32} (hsz : sz.toNat ≤ 65535) :
    ((sr >>> 16) + (sr &&& (0xFFFF : UInt32)) + (d >>> 16) +
      (d &&& (0xFFFF : UInt32)) + NET_PROTOCOL_UDP.toUInt32 + sz).toNat =
        (pseudoHeader sr d sz).sum := by
  have hl (s : UInt32) : (s &&& 0xFFFF).toNat = s.toNat % 65536 := by
    rw [UInt32.toNat_and]
    exact Nat.and_two_pow_sub_one_eq_mod _ 16
  have hp : NET_PROTOCOL_UDP.toNat = 17 := rfl
  have hs := sr.toNat_lt
  have hd := d.toNat_lt
  simp only [pseudoHeader, List.sum_cons, List.sum_nil, UInt32.toNat_add, toNat_upper, hl, UInt8.toNat_toUInt32,
    hp]
  omega

theorem toNat_udp_checksum (s d : UInt32) (udp : Mem) (sz : UInt32)
    (hs : sz.toNat ≤ 65535) :
    (udp_checksum s d udp sz).toNat =
      65535 - endAround ((pseudoHeader s d sz).sum + wordSum udp sz.toNat 0) := by
  have hst := toNat_pseudoHeader s d hs
  have hp : (pseudoHeader s d sz).sum ≤ 65536 * 6 := by
    have hw := pseudoHeader_lt s d (Nat.lt_succ_of_le hs)
    simp only [pseudoHeader, List.forall_mem_cons, List.sum_cons, List.sum_nil] at hw ⊢
    omega
  have hw := wordSum_le udp sz.toNat 0
  have ho : sz &&& 1 ≠ 0 ↔ sz.toNat % 2 = 1 := by
    rw [ne_eq, ← UInt32.toNat_inj, UInt32.toNat_and]
    simp
  unfold udp_checksum
  dsimp only
  rw [toNat_complement_carryLoop]
  congr 2
  by_cases hc : sz &&& 1 ≠ 0
  · rw [if_pos hc]
    obtain ⟨k, hk⟩ : ∃ k, sz.toNat = 2 * k + 1 := ⟨sz.toNat / 2, by have := ho.mp hc; omega⟩
    have hls : (sz - 1).toNat = 2 * k := by grind
    have hl := toNat_udp_checksum_loop udp k 1 0 (by decide)
    have hb := (udp (2 * k)).toNat_lt
    rw [hk, wordSum_odd] at hw ⊢
    rw [UInt32.toNat_add, hl, hst, hls, UInt32.toNat_shiftLeft, UInt8.toNat_toUInt32, Nat.shiftLeft_eq]
    grind
  · rw [if_neg hc]
    obtain ⟨k, hk⟩ : ∃ k, sz.toNat = 2 * k := ⟨sz.toNat / 2, by have := mt ho.mpr hc; omega⟩
    have hl := toNat_udp_checksum_loop udp k 0 0 (by decide)
    grind

theorem endAround_udpChecked (s d : UInt32) {b : Mem} {t : UInt32}
    (hl : 8 ≤ t.toNat) (ht : t.toNat ≤ 65535) (hz : load16 b 6 = 0) :
    endAround ((pseudoHeader s d t).sum +
      wordSum (udpChecked s d b t) t.toNat 0) = 65535 := by
  have hc := toNat_udp_checksum s d b t ht
  unfold udpChecked
  generalize udp_checksum s d b t = checksum at hc
  have hs := wordSum_store16 b (if checksum = 0 then 0xFFFF else checksum) t.toNat 0 3 (by omega)
  rw [show 0 + 2 * 3 = 6 from rfl, hz, UInt16.toNat_zero, Nat.add_zero] at hs
  dsimp only
  rw [hs, ← Nat.add_assoc]
  by_cases hn : checksum = 0
  · rw [if_pos hn]
    rw [hn, UInt16.toNat_zero] at hc
    have hle := endAround_le ((pseudoHeader s d t).sum + wordSum b t.toNat 0)
    have ho := endAround_eq_ones_iff.mp (Nat.le_antisymm hle (by omega))
    grind [endAround_eq_ones_iff]
  · rw [if_neg hn, hc, endAround_complement]

/-- What is sent has a checksum that is not 0, the sum of the pseudo-header and of the words of the
datagram is all ones, and so the checksum of the whole is 0. -/
theorem datagrams_check_out (packet : Option Mem) (capacity source_ip destination_ip : UInt32)
    (source_port destination_port : UInt16) (payload : Option Mem) (payload_size : UInt32)
    (hsize : payload_size.toNat ≤ 65527) (result : Int) (datagram : Option Mem)
    (hbuild : net_udp_build packet capacity source_ip destination_ip source_port destination_port payload
      payload_size = (result, datagram)) (hresult : result ≠ -1) :
    ∃ udp, datagram = some udp ∧ result = 8 + payload_size.toNat ∧ load16 udp 6 ≠ 0 ∧
      sumAround (pseudoHeader source_ip destination_ip (8 + payload_size) ++ words udp (8 + payload_size.toNat) 0) =
        0xFFFF ∧
      udp_checksum source_ip destination_ip udp (8 + payload_size) = 0 := by
  rcases packet with _ | bytes
  · cases hbuild
    exact absurd rfl hresult
  by_cases hrefused : (payload_size ≠ 0 ∧ payload.isNone) ∨ 8 + payload_size > 65535 ∨ capacity < 8 + payload_size ∨
      source_port = 0 ∨ destination_port = 0
  · cases (if_pos hrefused).symm.trans hbuild
    exact absurd rfl hresult
  cases (net_udp_build_some bytes source_ip destination_ip hrefused).symm.trans hbuild
  have htotal : (8 + payload_size).toNat = 8 + payload_size.toNat := by
    rw [UInt32.toNat_add]
    simp
    omega
  generalize hcopied : copy_bytes (udpHeader bytes source_port destination_port (8 + payload_size)) 8 payload
    payload_size = copied
  have hzero : load16 copied 6 = 0 := by
    rw [← hcopied, load16_congr fun i hi => copy_bytes_outside _ _ (by omega)]
    exact load16_store16 _ _ _
  have hlong : 8 ≤ (8 + payload_size).toNat := by omega
  have hsum := endAround_udpChecked source_ip destination_ip hlong (by omega) hzero
  refine ⟨_, rfl, ?_, ?_, ?_, ?_⟩
  · rw [toInt_eq, htotal, if_pos (by omega)]
    omega
  · show load16 (udpChecked _ _ _ _) 6 ≠ 0
    unfold udpChecked
    rw [load16_store16]
    split
    · decide
    · assumption
  · rw [← htotal, sumAround_eq, List.sum_append, sum_words, hsum]
    intro w hw
    rcases List.mem_append.mp hw with hw | hw
    · exact pseudoHeader_lt _ _ (by omega) w hw
    · exact words_lt _ _ _ w hw
  · rw [← UInt16.toNat_inj, toNat_udp_checksum _ _ _ _ (by omega), hsum]
    rfl

/-- Three bytes are sent. -/
theorem a_short_datagram_checks_out :
    ∃ udp, net_udp_build (some fun _ => 0) 11 0xC0A8010A 0xC0A80101 1234 4321 (some fun _ => 0x6D) 3 =
        (11, some udp) ∧ load16 udp 6 ≠ 0 ∧ udp_checksum 0xC0A8010A 0xC0A80101 udp 11 = 0 := by
  obtain ⟨udp, hudp, -, hfield, -, hchecksum⟩ := datagrams_check_out (some fun _ => 0) 11 0xC0A8010A 0xC0A80101 1234 4321
    (some fun _ => 0x6D) 3 (by decide) 11 _ rfl (by decide)
  exact ⟨udp, Prod.ext rfl hudp, hfield, hchecksum⟩

/-! ## Headers that have changed -/

theorem eq_store16 (m m' : Mem) (a : Nat) (h : ∀ i, i < a ∨ a + 2 ≤ i → m' i = m i) :
    m' = store16 m a (load16 m' a) := by
  funext i
  by_cases hi : i < a ∨ a + 2 ≤ i
  · rw [store16_outside _ _ hi, h i hi]
  · obtain ⟨j, rfl⟩ : ∃ j, i = a + j := ⟨i - a, by omega⟩
    rw [store16_load16 m m' a a (by omega)]

theorem load16_setByte_mod (m : Mem) {a i : Nat} {v : UInt8} (hi : i = a ∨ i = a + 1) (hv : v ≠ m i) :
    (load16 (setByte m i v) a).toNat % 65535 ≠ (load16 m a).toNat % 65535 := by
  have hvl : v.toNat ≠ (m i).toNat := by grind
  have hn := v.toNat_lt
  have hh := (m a).toNat_lt
  have hl := (m (a + 1)).toNat_lt
  rw [toNat_load16, toNat_load16]
  rcases hi with rfl | rfl
  · grind
  grind

theorem turned_ne (x : UInt8) (b : Fin 8) : x ^^^ ((1 : UInt8) <<< UInt8.ofNat b) ≠ x := by
  have hb : ∀ b : Fin 8, (1 : UInt8) <<< UInt8.ofNat b ≠ 0 := by decide
  intro h
  apply hb b
  calc (1 : UInt8) <<< UInt8.ofNat b = x ^^^ (x ^^^ (1 : UInt8) <<< UInt8.ofNat b) := by simp
    _ = x ^^^ x := by rw [h]
    _ = 0 := UInt8.xor_self

theorem net_ipv4_parse_refuses {p : Mem} (h0 : p 0 = 0x45)
    (hs : endAround (wordSum p 20 0) ≠ 65535) (s : UInt32) (i4 : Bool) :
    net_ipv4_parse (some p) s i4 = none := by
  have hh : (p 0 &&& 0x0F).toUInt32 * 4 = 20 := by
    rw [h0]
    decide
  have hle := endAround_le (wordSum p 20 0)
  have hc : net_checksum p 20 ≠ 0 := by
    intro hz
    rw [← UInt16.toNat_inj, toNat_net_checksum _ _ (by decide)] at hz
    grind
  grind [net_ipv4_parse]

theorem wordSum_changed {p : Mem} (hsm : endAround (wordSum p 20 0) = 65535) {k : Nat} (hk : k < 10)
    {v : UInt16} (hv : v.toNat % 65535 ≠ (load16 p (2 * k)).toNat % 65535) :
    endAround (wordSum (store16 p (2 * k) v) 20 0) ≠ 65535 := by
  have hs := wordSum_store16 p v 20 0 k (by omega)
  rw [Nat.zero_add] at hs
  grind [endAround_eq_ones_iff]

/-- A packet that was built is refused when a word of its header, other than the first one, has
another rest modulo 65535, and so when one bit of it is turned. -/
theorem changed_headers_are_refused (packet : Option Mem) (capacity source destination : UInt32)
    (protocol ttl : UInt8) (identification : UInt16) (payload : Option Mem) (payload_size : UInt32) (result : Int)
    (built : Option Mem)
    (hbuild : net_ipv4_build packet capacity source destination protocol ttl identification payload payload_size =
      (result, built)) (hresult : result ≠ -1) :
    ∃ bytes, built = some bytes ∧ ∀ (size : UInt32) (ipv4 : Bool),
      (∀ k, 1 ≤ k → k ≤ 9 → ∀ v : UInt16, v.toNat % 65535 ≠ (load16 bytes (2 * k)).toNat % 65535 →
        net_ipv4_parse (some (store16 bytes (2 * k) v)) size ipv4 = none) ∧
      ∀ i, 2 ≤ i → i ≤ 19 → ∀ b : Fin 8,
        net_ipv4_parse (some (setByte bytes i (bytes i ^^^ ((1 : UInt8) <<< UInt8.ofNat b)))) size ipv4 = none := by
  rcases packet with _ | bytes
  · cases hbuild
    exact absurd rfl hresult
  by_cases hrefused : (payload_size ≠ 0 ∧ payload.isNone) ∨ NET_IPV4_HEADER_MIN + payload_size > 65535 ∨
      capacity < NET_IPV4_HEADER_MIN + payload_size ∨ ttl = 0
  · cases (if_pos hrefused).symm.trans hbuild
    exact absurd rfl hresult
  cases (net_ipv4_build_some bytes source destination protocol identification hrefused).symm.trans hbuild
  generalize hheader : ipv4Header bytes source destination protocol ttl identification
    (NET_IPV4_HEADER_MIN + payload_size) = header
  obtain ⟨h0, -, -, -, -, -, -, h10, -, -⟩ := ipv4Header_fields _ _ _ _ _ _ _ hheader
  refine ⟨_, rfl, fun size ipv4 => ?_⟩
  generalize hwhole : copy_bytes (ipv4Checked header) 20 payload payload_size = whole
  have hsame : ∀ i < 20, whole i = ipv4Checked header i := by
    intro i hi
    rw [← hwhole, copy_bytes_outside _ _ (Or.inl hi)]
  have hsum : endAround (wordSum whole 20 0) = 65535 := by
    rw [wordSum_congr 20 0 fun i _ hi => hsame i (by omega), endAround_ipv4Checked h10]
  have hfirst : whole 0 = 0x45 := by
    rw [hsame 0 (by decide), ipv4Checked, store16_outside _ _ (by decide), h0]
  have hword : ∀ k, 1 ≤ k → k ≤ 9 → ∀ v : UInt16, v.toNat % 65535 ≠ (load16 whole (2 * k)).toNat % 65535 →
      net_ipv4_parse (some (store16 whole (2 * k) v)) size ipv4 = none := by
    intro k hk hk' v hv
    apply net_ipv4_parse_refuses
    · rw [store16_outside _ _ (by omega), hfirst]
    · exact wordSum_changed hsum (by omega) hv
  refine ⟨hword, fun i hi hi' b => ?_⟩
  -- The turned bit changes the word around it.
  have hchanged := eq_store16 whole (setByte whole i (whole i ^^^ ((1 : UInt8) <<< UInt8.ofNat b))) (2 * (i / 2))
    fun j hj => setByte_ne _ _ _ (by omega)
  rw [hchanged]
  exact hword (i / 2) (by omega) (by omega) _ (load16_setByte_mod whole (by omega) (turned_ne _ b))

/-- A packet of 24 bytes, whose destination is written over, is refused. -/
theorem a_changed_destination_is_refused :
    ∃ bytes, net_ipv4_build (some fun _ => 0) 24 0xC0A8010A 0xC0A80101 17 64 7 (some fun _ => 0x6D) 4 =
        (24, some bytes) ∧ load16 bytes 16 = 0xC0A8 ∧
      net_ipv4_parse (some (store16 bytes 16 0x0A00)) 24 true = none := by
  obtain ⟨bytes, hbytes, hrefused⟩ := changed_headers_are_refused (some fun _ => 0) 24 0xC0A8010A 0xC0A80101 17 64 7
    (some fun _ => 0x6D) 4 24 _ rfl (by decide)
  have hword : load16 bytes 16 = 0xC0A8 := by
    rw [← Option.some.inj hbytes]
    decide +kernel
  refine ⟨bytes, Prod.ext rfl hbytes, hword, (hrefused 24 true).1 8 (by decide) (by decide) 0x0A00 ?_⟩
  show (0x0A00 : UInt16).toNat % 65535 ≠ (load16 bytes 16).toNat % 65535
  rw [hword]
  decide

end mvh.net
