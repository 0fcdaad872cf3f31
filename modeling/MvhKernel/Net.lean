-- The packet functions of `net.c`: Ethernet, ARP, IPv4 and UDP headers are built into a
-- buffer and parsed from one, and an ICMP echo is answered.
import MvhKernel.OnesComplement

open flat_memory (Mem setByte fill copy shift Buffer)
open big_endian ones_complement

namespace mvh.net

def NET_ETHERNET_HEADER : UInt32 := 14
def NET_IPV4_HEADER_MIN : UInt32 := 20
def NET_ARP_PACKET_SIZE : UInt32 := 28
def NET_ETHERTYPE_IPV4 : UInt16 := 0x0800
def NET_PROTOCOL_UDP : UInt8 := 17

abbrev Mac := Buffer 6

structure EthernetFrame where
  destination : Mac
  source : Mac
  ethertype : UInt16
  payload : Mem
  payload_size : UInt32

structure ArpPacket where
  operation : UInt16
  sender_mac : Mac
  sender_ip : UInt32
  target_mac : Mac
  target_ip : UInt32

structure Ipv4Packet where
  header_size : UInt8
  dscp_ecn : UInt8
  total_size : UInt16
  identification : UInt16
  fragment : UInt16
  ttl : UInt8
  protocol : UInt8
  source : UInt32
  destination : UInt32
  payload : Mem
  payload_size : UInt32

structure UdpDatagram where
  source_port : UInt16
  destination_port : UInt16
  payload : Mem
  payload_size : UInt32

/-- `copy_bytes` from a pointer that may be null, which is only read for a size that is not 0. -/
def copy_bytes (target : Mem) (a : Nat) (source : Option Mem) (size : UInt32) : Mem :=
  match source with
  | some bytes => copy target a bytes 0 size.toNat
  | none => target

/-! ## Checksums -/

def net_checksum_loop (bytes : Mem) : Nat → Nat → UInt32 → UInt32
  | 0, _, sum => sum
  | 1, a, sum => sum + (bytes a).toUInt32 <<< 8
  | size + 2, a, sum => net_checksum_loop bytes size (a + 2) (sum + (load16 bytes a).toUInt32)

def net_checksum (bytes : Mem) (size : UInt32) : UInt16 :=
  (~~~ carryLoop 2 (net_checksum_loop bytes size.toNat 0 0)).toUInt16

def udp_checksum_loop (udp : Mem) : Nat → Nat → UInt32 → UInt32
  | size + 2, offset, sum => udp_checksum_loop udp size (offset + 2) (sum + (load16 udp offset).toUInt32)
  | _, _, sum => sum

def udp_checksum (source_ip destination_ip : UInt32) (udp : Mem) (size : UInt32) : UInt16 :=
  let sum := (source_ip >>> 16) + (source_ip &&& (0xFFFF : UInt32)) + (destination_ip >>> 16) +
    (destination_ip &&& (0xFFFF : UInt32)) + NET_PROTOCOL_UDP.toUInt32 + size
  let sum := udp_checksum_loop udp size.toNat 0 sum
  let sum := if size &&& 1 ≠ 0 then sum + (udp (size - 1).toNat).toUInt32 <<< 8 else sum
  (~~~ carryLoop 2 sum).toUInt16

/-! ## Parsers

The last argument of a parser says whether the pointer to its result is not null. The result
`none` is -1. -/

def net_ethernet_parse (packet : Option Mem) (size : UInt32) (frame : Bool) : Option EthernetFrame :=
  match packet with
  | none => none
  | some bytes =>
    if frame = false ∨ size < NET_ETHERNET_HEADER then none
    else some
      { destination := Buffer.ofMem 6 bytes
        source := Buffer.ofMem 6 (shift bytes 6)
        ethertype := load16 bytes 12
        payload := shift bytes NET_ETHERNET_HEADER.toNat
        payload_size := size - NET_ETHERNET_HEADER }

def net_arp_parse (packet : Option Mem) (size : UInt32) (arp : Bool) : Option ArpPacket :=
  match packet with
  | none => none
  | some bytes =>
    if arp = false ∨ size < NET_ARP_PACKET_SIZE ∨ load16 bytes 0 ≠ 1 ∨
        load16 bytes 2 ≠ NET_ETHERTYPE_IPV4 ∨ bytes 4 ≠ 6 ∨ bytes 5 ≠ 4 then none
    else
      let operation := load16 bytes 6
      if operation ≠ 1 ∧ operation ≠ 2 then none
      else some
        { operation
          sender_mac := Buffer.ofMem 6 (shift bytes 8)
          sender_ip := load32 bytes 14
          target_mac := Buffer.ofMem 6 (shift bytes 18)
          target_ip := load32 bytes 24 }

def net_ipv4_parse (packet : Option Mem) (size : UInt32) (ipv4 : Bool) : Option Ipv4Packet :=
  match packet with
  | none => none
  | some bytes =>
    if ipv4 = false ∨ size < NET_IPV4_HEADER_MIN ∨ bytes 0 >>> 4 ≠ 4 ∨ bytes 0 &&& 0x0F < 5 then none
    else
      let header_size := (bytes 0 &&& 0x0F).toUInt32 * 4
      let total := (load16 bytes 2).toUInt32
      if header_size > size ∨ total < header_size ∨ total > size ∨
          net_checksum bytes header_size ≠ 0 then none
      else some
        { header_size := header_size.toUInt8
          dscp_ecn := bytes 1
          total_size := total.toUInt16
          identification := load16 bytes 4
          fragment := load16 bytes 6
          ttl := bytes 8
          protocol := bytes 9
          source := load32 bytes 12
          destination := load32 bytes 16
          payload := shift bytes header_size.toNat
          payload_size := total - header_size }

def net_udp_parse (packet : Option Mem) (size : UInt32) (udp : Bool) : Option UdpDatagram :=
  match packet with
  | none => none
  | some bytes =>
    if udp = false ∨ size < 8 then none
    else
      let length := (load16 bytes 4).toUInt32
      if length < 8 ∨ length > size then none
      else some
        { source_port := load16 bytes 0
          destination_port := load16 bytes 2
          payload := shift bytes 8
          payload_size := length - 8 }

/-! ## Builders

The result is the value that the function returns, and the packet. -/

def toInt (total : UInt32) : Int := total.toInt32.toInt

def ethernetHeader (bytes : Mem) (destination source : Mac) (ethertype : UInt16) : Mem :=
  let bytes := copy bytes 0 destination.bytes 0 6
  let bytes := copy bytes 6 source.bytes 0 6
  store16 bytes 12 ethertype

def net_ethernet_build (packet : Option Mem) (capacity : UInt32) (destination source : Option Mac)
    (ethertype : UInt16) (payload : Option Mem) (payload_size : UInt32) : Int × Option Mem :=
  match packet, destination, source with
  | some bytes, some destination, some source =>
    let total := NET_ETHERNET_HEADER + payload_size
    if (payload_size ≠ 0 ∧ payload.isNone) ∨ capacity < total then (-1, packet)
    else
      let bytes := ethernetHeader bytes destination source ethertype
      (toInt total, some (copy_bytes bytes NET_ETHERNET_HEADER.toNat payload payload_size))
  | _, _, _ => (-1, packet)

def arpBytes (bytes : Mem) (operation : UInt16) (sender_mac : Mac) (sender_ip : UInt32)
    (target_mac : Mac) (target_ip : UInt32) : Mem :=
  let bytes := store16 bytes 0 1
  let bytes := store16 bytes 2 NET_ETHERTYPE_IPV4
  let bytes := setByte bytes 4 6
  let bytes := setByte bytes 5 4
  let bytes := store16 bytes 6 operation
  let bytes := copy bytes 8 sender_mac.bytes 0 6
  let bytes := store32 bytes 14 sender_ip
  let bytes := copy bytes 18 target_mac.bytes 0 6
  store32 bytes 24 target_ip

def net_arp_build (packet : Option Mem) (capacity : UInt32) (operation : UInt16)
    (sender_mac : Option Mac) (sender_ip : UInt32) (target_mac : Option Mac) (target_ip : UInt32) :
    Int × Option Mem :=
  match packet, sender_mac, target_mac with
  | some bytes, some sender_mac, some target_mac =>
    if capacity < NET_ARP_PACKET_SIZE ∨ (operation ≠ 1 ∧ operation ≠ 2) then (-1, packet)
    else
      (toInt NET_ARP_PACKET_SIZE,
        some (arpBytes bytes operation sender_mac sender_ip target_mac target_ip))
  | _, _, _ => (-1, packet)

def ipv4Header (bytes : Mem) (source destination : UInt32) (protocol ttl : UInt8)
    (identification : UInt16) (total : UInt32) : Mem :=
  let bytes := fill bytes 0 NET_IPV4_HEADER_MIN.toNat 0
  let bytes := setByte bytes 0 0x45
  let bytes := store16 bytes 2 total.toUInt16
  let bytes := store16 bytes 4 identification
  let bytes := store16 bytes 6 0x4000
  let bytes := setByte bytes 8 ttl
  let bytes := setByte bytes 9 protocol
  let bytes := store32 bytes 12 source
  store32 bytes 16 destination

def ipv4Checked (bytes : Mem) : Mem := store16 bytes 10 (net_checksum bytes NET_IPV4_HEADER_MIN)

def net_ipv4_build (packet : Option Mem) (capacity source destination : UInt32)
    (protocol ttl : UInt8) (identification : UInt16) (payload : Option Mem) (payload_size : UInt32) :
    Int × Option Mem :=
  match packet with
  | none => (-1, packet)
  | some bytes =>
    let total := NET_IPV4_HEADER_MIN + payload_size
    if (payload_size ≠ 0 ∧ payload.isNone) ∨ total > 65535 ∨ capacity < total ∨ ttl = 0 then
      (-1, packet)
    else
      let bytes := ipv4Header bytes source destination protocol ttl identification total
      let bytes := ipv4Checked bytes
      (toInt total, some (copy_bytes bytes NET_IPV4_HEADER_MIN.toNat payload payload_size))

def udpHeader (bytes : Mem) (source_port destination_port : UInt16) (total : UInt32) : Mem :=
  let bytes := store16 bytes 0 source_port
  let bytes := store16 bytes 2 destination_port
  let bytes := store16 bytes 4 total.toUInt16
  store16 bytes 6 0

/-- The datagram with its checksum: 0 means that there is none, so a sum of 0 is
sent as 0xFFFF. -/
def udpChecked (source_ip destination_ip : UInt32) (bytes : Mem) (total : UInt32) : Mem :=
  let checksum := udp_checksum source_ip destination_ip bytes total
  store16 bytes 6 (if checksum = 0 then 0xFFFF else checksum)

def net_udp_build (packet : Option Mem) (capacity source_ip destination_ip : UInt32)
    (source_port destination_port : UInt16) (payload : Option Mem) (payload_size : UInt32) :
    Int × Option Mem :=
  match packet with
  | none => (-1, packet)
  | some bytes =>
    let total := 8 + payload_size
    if (payload_size ≠ 0 ∧ payload.isNone) ∨ total > 65535 ∨ capacity < total ∨ source_port = 0 ∨
        destination_port = 0 then (-1, packet)
    else
      let bytes := udpHeader bytes source_port destination_port total
      let bytes := copy_bytes bytes 8 payload payload_size
      (toInt total, some (udpChecked source_ip destination_ip bytes total))

/-! ## ICMP -/

def net_icmp_echo_reply (packet : Option Mem) (size : UInt32) : Int × Option Mem :=
  match packet with
  | none => (-1, packet)
  | some bytes =>
    if size < 8 ∨ bytes 0 ≠ 8 ∨ bytes 1 ≠ 0 ∨ net_checksum bytes size ≠ 0 then (-1, packet)
    else
      let bytes := setByte bytes 0 0
      let bytes := setByte bytes 2 0
      let bytes := setByte bytes 3 0
      (0, some (store16 bytes 2 (net_checksum bytes size)))

end mvh.net
