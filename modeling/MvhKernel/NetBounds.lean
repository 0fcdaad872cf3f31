-- Where the packet builders write: below the capacity, unless the size of the payload
-- wraps the 32-bit total around.
import MvhKernel.Net

open flat_memory (Mem setByte setByte_ne fill_outside copy_outside copy_inside Buffer)
open big_endian

namespace mvh.net

/-- The builder writes only below the capacity, and nothing when it gives -1. -/
def InBounds (capacity : UInt32) (build : Option Mem → Int × Option Mem) : Prop :=
  ∀ bytes, ∃ bytes', (build (some bytes)).2 = some bytes' ∧
    (∀ i, capacity.toNat ≤ i → bytes' i = bytes i) ∧ ((build (some bytes)).1 = -1 → bytes' = bytes)

/-! ## What a builder may not do -/

section
variable {capacity : UInt32} {build : Option Mem → Int × Option Mem}

theorem inBounds_of_refused (h : ∀ p, build p = (-1, p)) : InBounds capacity build :=
  fun b => ⟨b, by rw [h], fun _ _ => rfl, fun _ => rfl⟩

theorem not_inBounds_of_far {i : Nat} {v : UInt8} (hi : capacity.toNat ≤ i)
    (h : ∀ b b', (build (some b)).2 = some b' → b' i = v) :
    ¬ InBounds capacity build := by
  intro hin
  obtain ⟨b', hb, hs, _⟩ := hin fun _ => v + 1
  have ho := hs i hi
  grind

theorem not_inBounds_of_fail {i : Nat} {v : UInt8} (hf : ∀ b, (build (some b)).1 = -1)
    (h : ∀ b b', (build (some b)).2 = some b' → b' i = v) :
    ¬ InBounds capacity build := by
  intro hin
  obtain ⟨b', hb, _, hn⟩ := hin fun _ => v + 1
  grind

end

theorem toInt_eq (t : UInt32) : toInt t =
    if t.toNat < 2 ^ 31 then (t.toNat : Int) else (t.toNat : Int) - 2 ^ 32 := by
  unfold toInt
  rw [← Int32.toInt_toBitVec, UInt32.toBitVec_toInt32, BitVec.toInt_eq_toNat_cond]
  grind [UInt32.toNat_toBitVec]

theorem toInt_eq_neg_one {t : UInt32} : toInt t = -1 ↔ t.toNat = 2 ^ 32 - 1 := by
  have hlt := t.toNat_lt
  rw [toInt_eq]
  split <;> omega

theorem copy_bytes_outside (target : Mem) {a i : Nat} (s : Option Mem) {sz : UInt32}
    (h : i < a ∨ a + sz.toNat ≤ i) : copy_bytes target a s sz i = target i := by
  cases s with
  | none => rfl
  | some b => exact copy_outside _ _ h

theorem copy_bytes_inside (target : Mem) {a i : Nat} (b : Mem) {sz : UInt32} (h1 : a ≤ i)
    (h2 : i < a + sz.toNat) : copy_bytes target a (some b) sz i = b (i - a) := by
  have hc := copy_inside target b (s := 0) h1 h2
  rw [Nat.zero_add] at hc
  exact hc

theorem inBounds_iff_of_written {capacity hd s : UInt32} {build : Option Mem → Int × Option Mem}
    {w : Mem → Mem} {last : UInt8} {n : Nat} (hn : hd.toNat = n)
    (hb : ∀ b, build (some b) = (toInt (hd + s), some (w b)))
    (ho : ∀ b i, n + s.toNat ≤ i → w b i = b i)
    (hl : 0 < s.toNat → ∀ b, w b (n + s.toNat - 1) = last)
    (hh : n < 2 ^ 32 - 1) (hft : hd + s ≤ capacity) :
    InBounds capacity build ↔
      n + s.toNat < 2 ^ 32 ∧ n + s.toNat ≠ 2 ^ 32 - 1 := by
  have ht : (hd + s).toNat = (n + s.toNat) % 2 ^ 32 := by
    rw [UInt32.toNat_add, hn]
  have hc := capacity.toNat_lt
  have hs := s.toNat_lt
  have hw (hp : 0 < s.toNat) : ∀ b b', (build (some b)).2 = some b' →
      b' (n + s.toNat - 1) = last := by
    intro b b' h
    rw [hb, Option.some.injEq] at h
    rw [← h]
    exact hl hp b
  constructor
  · intro hin
    constructor
    · by_contra hwr
      exact not_inBounds_of_far (by omega) (hw (by omega)) hin
    · intro hm
      refine not_inBounds_of_fail (fun b => ?_) (hw (by omega)) hin
      rw [hb]
      exact toInt_eq_neg_one.mpr (by omega)
  · rintro ⟨hlt, hne⟩ b
    have hf' : (hd + s).toNat ≤ capacity.toNat := UInt32.le_iff_toNat_le.mp hft
    refine ⟨w b, by rw [hb], fun i hi => ho b i (by omega), fun hf => ?_⟩
    rw [hb] at hf
    have hm := toInt_eq_neg_one.mp hf
    omega

theorem copy_bytes_last {s : UInt32} {payload : Option Mem} (h : ¬ (s ≠ 0 ∧ payload.isNone))
    (a : Nat) :
    ∃ last, 0 < s.toNat → ∀ target, copy_bytes target a payload s (a + s.toNat - 1) = last := by
  rcases payload with _ | d
  · refine ⟨0, fun hp => absurd ⟨fun hz => ?_, rfl⟩ h⟩
    rw [hz] at hp
    exact Nat.lt_irrefl _ hp
  · exact ⟨_, fun hp target => copy_bytes_inside target d (by omega) (by omega)⟩

theorem total_le_of_not_gt {hd s : UInt32} {n : Nat} (hn : hd.toNat = n)
    (h : ¬ hd + s > 65535) : (n + s.toNat) % 2 ^ 32 ≤ 65535 := by
  have hle := UInt32.le_iff_toNat_le.mp (UInt32.not_lt.mp h)
  rwa [UInt32.toNat_add, hn] at hle

theorem inBounds_iff_of_guard {capacity : UInt32} {build : Option Mem → Int × Option Mem}
    {r fits : Prop} (hr : r → ∀ p, build p = (-1, p))
    (ha : ¬ r → (InBounds capacity build ↔ fits)) :
    InBounds capacity build ↔ r ∨ fits := by
  by_cases h : r
  · exact ⟨fun _ => Or.inl h, fun _ => inBounds_of_refused (hr h)⟩
  · rw [ha h, or_iff_right h]

/-! ## The three builders -/

section
variable (capacity : UInt32) (payload : Option Mem) (payload_size : UInt32)

variable {capacity payload payload_size} in
theorem net_ethernet_build_some (b : Mem) (d s : Mac) (e : UInt16)
    (h : ¬ ((payload_size ≠ 0 ∧ payload.isNone) ∨ capacity < NET_ETHERNET_HEADER + payload_size)) :
    net_ethernet_build (some b) capacity (some d) (some s) e payload
      payload_size = (toInt (NET_ETHERNET_HEADER + payload_size),
        some (copy_bytes (ethernetHeader b d s e) 14 payload payload_size)) :=
  if_neg h

theorem ethernetHeader_outside (b : Mem) (d s : Mac) (e : UInt16) {i : Nat}
    (h : 14 ≤ i) : ethernetHeader b d s e i = b i := by
  unfold ethernetHeader
  grind

theorem net_ethernet_build_inBounds_iff (d s : Option Mac) (e : UInt16) :
    InBounds capacity (fun p => net_ethernet_build p capacity d s e
        payload payload_size) ↔
      (d = none ∨ s = none ∨ (payload_size ≠ 0 ∧ payload.isNone) ∨
        capacity < NET_ETHERNET_HEADER + payload_size) ∨ 14 + payload_size.toNat < 2 ^ 32 - 1 := by
  apply inBounds_iff_of_guard
  · intro hr p
    rcases p with _ | bytes
    · rfl
    rcases d with _ | d
    · rfl
    rcases s with _ | s
    · rfl
    simp only [reduceCtorEq, false_or] at hr
    exact if_pos hr
  · intro ha
    rw [not_or, not_or] at ha
    obtain ⟨hd, hs, hg⟩ := ha
    obtain ⟨d, rfl⟩ := Option.ne_none_iff_exists'.mp hd
    obtain ⟨s, rfl⟩ := Option.ne_none_iff_exists'.mp hs
    rw [not_or] at hg
    obtain ⟨l, hl⟩ := copy_bytes_last hg.1 14
    have hb bytes := net_ethernet_build_some bytes d s e (not_or.mpr hg)
    rw [inBounds_iff_of_written (n := 14) rfl hb _ (fun hp _ => hl hp _) (by decide)
      (UInt32.not_lt.mp hg.2)]
    · omega
    grind [copy_bytes_outside, ethernetHeader_outside]

variable {capacity payload payload_size} in
theorem net_ipv4_build_some (b : Mem) (s d : UInt32) (p : UInt8) {ttl : UInt8}
    (i : UInt16) (h : ¬ ((payload_size ≠ 0 ∧ payload.isNone) ∨
      NET_IPV4_HEADER_MIN + payload_size > 65535 ∨ capacity < NET_IPV4_HEADER_MIN + payload_size ∨ ttl = 0)) :
    net_ipv4_build (some b) capacity s d p ttl i payload
      payload_size = (toInt (NET_IPV4_HEADER_MIN + payload_size),
        some (copy_bytes (ipv4Checked (ipv4Header b s d p ttl i
          (NET_IPV4_HEADER_MIN + payload_size))) 20 payload payload_size)) :=
  if_neg h

theorem ipv4Header_outside (b : Mem) (s d : UInt32) (p ttl : UInt8)
    (it : UInt16) (t : UInt32) {i : Nat} (h : 20 ≤ i) :
    ipv4Header b s d p ttl it t i = b i := by
  unfold ipv4Header
  rw [store32_outside _ _ (by omega), store32_outside _ _ (by omega), setByte_ne _ _ _ (by omega),
    setByte_ne _ _ _ (by omega), store16_outside _ _ (by omega), store16_outside _ _ (by omega),
    store16_outside _ _ (by omega), setByte_ne _ _ _ (by omega), fill_outside _ _ (Or.inr h)]

theorem net_ipv4_build_inBounds_iff (s d : UInt32) (p ttl : UInt8)
    (it : UInt16) :
    InBounds capacity (fun pc => net_ipv4_build pc capacity s d p ttl
        it payload payload_size) ↔
      ((payload_size ≠ 0 ∧ payload.isNone) ∨ NET_IPV4_HEADER_MIN + payload_size > 65535 ∨
        capacity < NET_IPV4_HEADER_MIN + payload_size ∨ ttl = 0) ∨ 20 + payload_size.toNat < 2 ^ 32 := by
  apply inBounds_iff_of_guard
  · intro hr pc
    rcases pc with _ | bytes
    · rfl
    · exact if_pos hr
  · intro hg
    have hb bytes := net_ipv4_build_some bytes s d p it hg
    simp only [not_or] at hg
    obtain ⟨hp, hl, hf, _⟩ := hg
    obtain ⟨l, hls⟩ := copy_bytes_last hp 20
    have hs := total_le_of_not_gt (n := 20) rfl hl
    rw [inBounds_iff_of_written (n := 20) rfl hb _ (fun hps _ => hls hps _) (by decide)
      (UInt32.not_lt.mp hf)]
    · omega
    · intro bytes i hi
      have hi' := Nat.le_of_add_right_le hi
      rw [copy_bytes_outside _ _ (Or.inr hi), ipv4Checked, store16_outside _ _ (by omega),
        ipv4Header_outside _ _ _ _ _ _ _ hi']

variable {capacity payload payload_size} in
theorem net_udp_build_some (b : Mem) (sr ds : UInt32)
    {s d : UInt16} (h : ¬ ((payload_size ≠ 0 ∧ payload.isNone) ∨
      8 + payload_size > 65535 ∨ capacity < 8 + payload_size ∨ s = 0 ∨ d = 0)) :
    net_udp_build (some b) capacity sr ds s d payload
      payload_size = (toInt (8 + payload_size), some (udpChecked sr ds
        (copy_bytes (udpHeader b s d (8 + payload_size)) 8 payload
          payload_size) (8 + payload_size))) :=
  if_neg h

theorem udpHeader_outside (b : Mem) (s d : UInt16) (t : UInt32)
    {i : Nat} (h : 8 ≤ i) : udpHeader b s d t i = b i := by
  unfold udpHeader
  grind

theorem net_udp_build_inBounds_iff (sr ds : UInt32)
    (s d : UInt16) :
    InBounds capacity (fun p => net_udp_build p capacity sr ds s
        d payload payload_size) ↔
      ((payload_size ≠ 0 ∧ payload.isNone) ∨ 8 + payload_size > 65535 ∨ capacity < 8 + payload_size ∨
        s = 0 ∨ d = 0) ∨ 8 + payload_size.toNat < 2 ^ 32 := by
  apply inBounds_iff_of_guard
  · intro hr p
    rcases p with _ | bytes
    · rfl
    · exact if_pos hr
  · intro hg
    have hb bytes := net_udp_build_some bytes sr ds hg
    simp only [not_or] at hg
    obtain ⟨hp, hl, hf, _, _⟩ := hg
    obtain ⟨l, hls⟩ := copy_bytes_last hp 8
    have hs := total_le_of_not_gt (n := 8) rfl hl
    rw [inBounds_iff_of_written (n := 8) rfl hb _ _ (by decide) (UInt32.not_lt.mp hf)]
    · omega
    · exact l
    · intro bytes i hi
      have hi' := Nat.le_of_add_right_le hi
      rw [udpChecked, store16_outside _ _ (by omega), copy_bytes_outside _ _ (Or.inr hi),
        udpHeader_outside _ _ _ _ hi']
    · intro hps bytes
      rw [udpChecked, store16_outside _ _ (by omega)]
      exact hls hps _

end

/-! ## All builders -/

/-- The three builders share one mistake. A call that is not refused stays in the
packet exactly when the header and the payload together do not wrap; a frame
of 2^32 - 1 bytes is written and still reported as -1. -/
theorem builders_stay_in_the_packet_iff (capacity : UInt32) (payload : Option Mem) (payload_size : UInt32) :
    (∀ destination source ethertype,
      InBounds capacity (fun packet => net_ethernet_build packet capacity destination source ethertype
          payload payload_size) ↔
        (destination = none ∨ source = none ∨ (payload_size ≠ 0 ∧ payload.isNone) ∨
          capacity < NET_ETHERNET_HEADER + payload_size) ∨ 14 + payload_size.toNat < 2 ^ 32 - 1) ∧
    (∀ source destination protocol ttl identification,
      InBounds capacity (fun packet => net_ipv4_build packet capacity source destination protocol ttl
          identification payload payload_size) ↔
        ((payload_size ≠ 0 ∧ payload.isNone) ∨ NET_IPV4_HEADER_MIN + payload_size > 65535 ∨
          capacity < NET_IPV4_HEADER_MIN + payload_size ∨ ttl = 0) ∨
            20 + payload_size.toNat < 2 ^ 32) ∧
    (∀ source_ip destination_ip source_port destination_port,
      InBounds capacity (fun packet => net_udp_build packet capacity source_ip destination_ip
          source_port destination_port payload payload_size) ↔
        ((payload_size ≠ 0 ∧ payload.isNone) ∨ 8 + payload_size > 65535 ∨ capacity < 8 + payload_size ∨
          source_port = 0 ∨ destination_port = 0) ∨ 8 + payload_size.toNat < 2 ^ 32) :=
  ⟨net_ethernet_build_inBounds_iff capacity payload payload_size,
    net_ipv4_build_inBounds_iff capacity payload payload_size,
    net_udp_build_inBounds_iff capacity payload payload_size⟩

/-- A frame for a payload of 2^32 - 14 bytes: the total is 0, so a packet of no
bytes is large enough, and the header and the payload are written behind it. -/
theorem an_empty_packet_is_overrun :
    ¬ InBounds 0 (fun packet => net_ethernet_build packet 0 (some (Buffer.ofMem 6 fun _ => 0xFF))
      (some (Buffer.ofMem 6 fun _ => 2)) 0x0800 (some fun _ => 0) (0 - 14)) := by
  rw [net_ethernet_build_inBounds_iff]
  decide

end mvh.net
