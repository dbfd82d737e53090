import NetRuleRouter.IpNetwork
import NetRuleRouter.Numerals

/-!
# Addresses as text, and their classes

The standard text forms of addresses: dotted decimal without leading zeros,
and colon-separated groups with the longest run of zero groups left out. A
rule may name no address that is never a destination, and no network that
touches a reserved class or is too wide.
-/

set_option autoImplicit false

namespace NetRuleRouter.IpText
open TextOps Numerals IpNetwork

def readChar (c : Char) (s : Text) : Option Text := stripPre [c] s

def readOctet (s : Text) : Option (ℕ × Text) := readNumber 10 3 false 256 s

def readIpv4 (s : Text) : Option (ℕ × Text) :=
  (readOctet s).bind fun a => (readChar '.' a.2).bind fun s =>
    (readOctet s).bind fun b => (readChar '.' b.2).bind fun s =>
      (readOctet s).bind fun c => (readChar '.' c.2).bind fun s =>
        (readOctet s).map fun d => (((a.1 * 256 + b.1) * 256 + c.1) * 256 + d.1, d.2)

def readGroup (s : Text) : Option (ℕ × Text) := readNumber 16 4 true 65536 s

/-- `inner` after a colon, unless it is the first of its list. -/
def readSeparated (first : Bool) (inner : Text → Option (ℕ × Text)) (s : Text) :
    Option (ℕ × Text) :=
  if first then inner s else (readChar ':' s).bind inner

def readGroups (first : Bool) : ℕ → Text → List ℕ × Bool × Text
  | 0, s => ([], false, s)
  | left + 1, s =>
    match if 0 < left then readSeparated first readIpv4 s else none with
    | some (v, s) => ([v / 65536, v % 65536], true, s)
    | none => match readSeparated first readGroup s with
      | none => ([], false, s)
      | some (g, s) =>
        let r := readGroups false left s
        (g :: r.1, r.2.1, r.2.2)

def groupsValue (gs : List ℕ) : ℕ := gs.foldl (fun n g => n * 65536 + g) 0

def readIpv6 (s : Text) : Option (ℕ × Text) :=
  let head := readGroups true 8 s
  if head.1.length = 8 then some (groupsValue head.1, head.2.2)
  else if head.2.1 then none
  else (readChar ':' head.2.2).bind fun s => (readChar ':' s).map fun s =>
    let tail := readGroups true (8 - (head.1.length + 1)) s
    (groupsValue (head.1 ++ List.replicate (8 - tail.1.length - head.1.length) 0 ++ tail.1),
      tail.2.2)

def parseIpAddr (s : Text) : Option IpAddr :=
  match readIpv4 s with
  | some (n, []) => some (.v4 (BitVec.ofNat 32 n))
  | some (_, _ :: _) => none
  | none => match readIpv6 s with
    | some (n, []) => some (.v6 (BitVec.ofNat 128 n))
    | _ => none

def octets (n : ℕ) : List ℕ := [n / 16777216 % 256, n / 65536 % 256, n / 256 % 256, n % 256]

def ipv4Text (n : ℕ) : Text := ['.'].intercalate ((octets n).map (numeral 10))

/-- The `k` low groups of sixteen bits, the highest first. -/
def groupsOf : ℕ → ℕ → List ℕ
  | 0, _ => []
  | k + 1, n => groupsOf k (n / 65536) ++ [n % 65536]

/-- Start and length of the longest run of zeros; `i` counts the groups
passed, `cur` is the run that ends there and `best` the longest so far. -/
def zeroSpanFrom (i : ℕ) (cur best : ℕ × ℕ) : List ℕ → ℕ × ℕ
  | [] => best
  | g :: gs =>
    if g = 0 then
      let cur := (if cur.2 = 0 then i else cur.1, cur.2 + 1)
      zeroSpanFrom (i + 1) cur (if best.2 < cur.2 then cur else best) gs
    else zeroSpanFrom (i + 1) (0, 0) best gs

def zeroSpan (gs : List ℕ) : ℕ × ℕ := zeroSpanFrom 0 (0, 0) (0, 0) gs

def groupsText (gs : List ℕ) : Text := [':'].intercalate (gs.map (numeral 16))

def isIpv4Mapped (n : ℕ) : Bool := n / 4294967296 == 0xFFFF

def ipv6Text (n : ℕ) : Text :=
  if isIpv4Mapped n then "::ffff:".toList ++ ipv4Text (n % 4294967296)
  else
    let gs := groupsOf 8 n
    let z := zeroSpan gs
    if 1 < z.2 then groupsText (gs.take z.1) ++ "::".toList ++ groupsText (gs.drop (z.1 + z.2))
    else groupsText gs

def ipText : IpAddr → Text
  | .v4 bits => ipv4Text bits.toNat
  | .v6 bits => ipv6Text bits.toNat

/-- `address/prefix`, with white space around either part. -/
def IpBlock.parse (text : Text) : Option IpBlock := do
  let (address, length) ← splitOnce '/' (trim text)
  let length := trim length
  if length = [] || !length.all (isDigit 10) then none
  else IpBlock.new (← parseIpAddr (trim address)) (← parseUnsigned 256 length)

/-- `first-last`, with white space around either bound. -/
def IpRange.parse (text : Text) : Option IpRange := do
  let (first, last) ← splitOnce '-' (trim text)
  IpRange.new (← parseIpAddr (trim first)) (← parseIpAddr (trim last))

inductive AddressClass where
  | routable
  | loopback
  | linkLocal
  | multicast
  | broadcast
  | unspecified
  | thisNetwork
  deriving DecidableEq, Repr

def classifyV4 (ip : BitVec 32) : AddressClass :=
  let a := ip.toNat / 2 ^ 24
  let b := ip.toNat / 2 ^ 16 % 2 ^ 8
  if ip = 0 then .unspecified
  else if a = 0 then .thisNetwork
  else if a = 127 then .loopback
  else if ip = BitVec.allOnes 32 then .broadcast
  else if 224 ≤ a ∧ a ≤ 239 then .multicast
  else if a = 169 ∧ b = 254 then .linkLocal
  else .routable

def classifyV6 (ip : BitVec 128) : AddressClass :=
  let head := ip.toNat / 2 ^ 112
  if ip = 0 then .unspecified
  else if ip = 1 then .loopback
  else if head / 2 ^ 8 = 0xff then .multicast
  else if head &&& 0xffc0 = 0xfe80 then .linkLocal
  else .routable

def classify : IpAddr → AddressClass
  | .v4 bits => classifyV4 bits
  | .v6 bits => classifyV6 bits

/-- An address that stands for a four-byte one is that one. -/
def canonicalIp : IpAddr → IpAddr
  | .v4 bits => .v4 bits
  | .v6 bits => if isIpv4Mapped bits.toNat then .v4 (BitVec.ofNat 32 bits.toNat) else .v6 bits

def canonicalBlock (block : IpBlock) : IpBlock :=
  if !block.isIpv4 && 96 ≤ block.prefixLen && (canonicalIp block.network).isIpv4 then
    (IpBlock.new (canonicalIp block.network) (block.prefixLen - 96)).getD block
  else block

def widestRulePrefix (isIpv4 : Bool) : ℕ := if isIpv4 then 8 else 16

def widerThanRuleAllows (block : IpBlock) : Bool := block.prefixLen < widestRulePrefix block.isIpv4

def widthBits (range : IpRange) : ℕ := Nat.size (toBits range.last - toBits range.first)

def prefixOfWidth (isIpv4 : Bool) (widthBits : ℕ) : ℕ :=
  let bits := if isIpv4 then 32 else 128
  bits - min widthBits bits

def reserved : List (String × AddressClass) :=
  [("0.0.0.0/8", .thisNetwork), ("127.0.0.0/8", .loopback), ("224.0.0.0/4", .multicast),
    ("255.255.255.255/32", .broadcast), ("::/128", .unspecified), ("::1/128", .loopback),
    ("ff00::/8", .multicast)]

def reservedOverlap (block : IpBlock) : Option AddressClass :=
  (reserved.find? fun e =>
    (IpBlock.parse e.1.toList).any fun net => net.overlaps block).map Prod.snd

def linkLocalNetworks : List String := ["169.254.0.0/16", "fe80::/10"]

def touchesLinkLocal (block : IpBlock) : Bool :=
  (linkLocalNetworks.filterMap fun text => IpBlock.parse text.toList).any fun net =>
    net.overlaps block

def privateNetworks : List String :=
  ["10.0.0.0/8", "172.16.0.0/12", "192.168.0.0/16", "100.64.0.0/10", "fc00::/7"]

def isPrivateAddress (ip : IpAddr) : Bool :=
  (privateNetworks.filterMap fun text => IpBlock.parse text.toList).any fun net => net.contains ip

inductive LocalSegmentExemption where
  | exempt (blocks : List IpBlock)
  | tooWide
  | notPrivate
  deriving DecidableEq

def localSegmentExemption (segment : IpBlock) : LocalSegmentExemption :=
  if widerThanRuleAllows segment then .tooWide
  else
    let networks := (privateNetworks ++ linkLocalNetworks).filterMap fun text =>
      IpBlock.parse text.toList
    let exempt := (networks.filter fun net => net.isIpv4 == segment.isIpv4).filterMap fun net =>
      if net.covers segment then some segment
      else if segment.covers net then some net
      else none
    if exempt = [] then .notPrivate else .exempt exempt

def failClosedWidestPrefix (isIpv4 : Bool) : ℕ := if isIpv4 then 16 else 48

def widerThanFailClosed (block : IpBlock) : Bool :=
  block.prefixLen < failClosedWidestPrefix block.isIpv4

end NetRuleRouter.IpText
