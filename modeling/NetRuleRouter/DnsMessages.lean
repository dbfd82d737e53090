import NetRuleRouter.DnsNames
import NetRuleRouter.IpNetwork

/-!
# DNS messages

The question of a message, its answer records and the names they may answer
for. An address response is accepted for a question only where it echoes it,
and of its records only those under the asked name or a name the response's own
aliases lead to from there.
-/

set_option autoImplicit false

namespace NetRuleRouter.DnsMessages
open TextOps Utf8 DnsNames IpNetwork

def dnsHeaderLen : ℕ := 12
def qtypeA : UInt16 := 1
def qtypeCname : UInt16 := 5
def qtypeAaaa : UInt16 := 28
def classIn : UInt16 := 1
def rcodeNxdomain : UInt8 := 3

def u16At (packet : Bytes) (off : ℕ) : UInt16 := UInt16.ofNat (fromBe ((packet.drop off).take 2))

def u32At (packet : Bytes) (off : ℕ) : UInt32 := UInt32.ofNat (fromBe ((packet.drop off).take 4))

structure ParsedQuestion where
  qname : Text
  qtype : UInt16
  questionEnd : ℕ
  deriving DecidableEq

/-- A server may compress the question it echoes. -/
def questionName (packet : Bytes) : Option (Text × ℕ) :=
  match parseQname packet dnsHeaderLen with
  | some parsed => some parsed
  | none =>
    match decodeName packet dnsHeaderLen, skipEncodedName packet dnsHeaderLen with
    | some name, some stop => some (name, stop)
    | _, _ => none

def parseQuestion (packet : Bytes) : Option ParsedQuestion :=
  if packet.length < dnsHeaderLen then none
  else if u16At packet 4 = 0 then none
  else
    match questionName packet with
    | none => none
    | some (qname, afterName) =>
      -- QTYPE and QCLASS; any class will do
      if packet.length < afterName + 4 then none
      else some ⟨qname, u16At packet afterName, afterName + 4⟩

structure AnswerRr where
  owner : Option Text
  rtype : UInt16
  rclass : UInt16
  ttl : UInt32
  rdataStart : ℕ
  rdlen : ℕ
  deriving DecidableEq

def answerAt (packet : Bytes) (off : ℕ) : Option AnswerRr :=
  match skipEncodedName packet off with
  | none => none
  | some afterName =>
    if packet.length < afterName + 10 then none
    else
      let rdlen := (u16At packet (afterName + 8)).toNat
      if packet.length < afterName + 10 + rdlen then none
      else some
        { owner := decodeName packet off
          rtype := u16At packet afterName
          rclass := u16At packet (afterName + 2)
          ttl := u32At packet (afterName + 4)
          rdataStart := afterName + 10
          rdlen := rdlen }

def readAnswerRecords (packet : Bytes) : ℕ → ℕ → List AnswerRr
  | _, 0 => []
  | off, ancount + 1 =>
    match answerAt packet off with
    | none => []
    | some rr => rr :: readAnswerRecords packet (rr.rdataStart + rr.rdlen) ancount

def maxCnameChain : ℕ := 16

def aliasesOf (packet : Bytes) (records : List AnswerRr) : List (Text × Text) :=
  (records.filter fun r => r.rtype = qtypeCname && r.rclass = classIn).filterMap fun r =>
    match r.owner, decodeName packet r.rdataStart with
    | some owner, some target => some (owner, target)
    | _, _ => none

/-- One pass over the aliases, and whether it found a new name. -/
def closurePass : List (Text × Text) → List Text → Bool → List Text × Bool
  | [], names, grew => (names, grew)
  | (owner, target) :: rest, names, grew =>
    if names.contains owner && !names.contains target then
      closurePass rest (target :: names) true
    else closurePass rest names grew

def closureRounds (aliases : List (Text × Text)) : ℕ → List Text → List Text
  | 0, names => names
  | rounds + 1, names =>
    match closurePass aliases names false with
    | (names', true) => closureRounds aliases rounds names'
    | (names', false) => names'

def answerOwnerClosure (packet : Bytes) (records : List AnswerRr) (qname : Text) : List Text :=
  closureRounds (aliasesOf packet records) maxCnameChain [qname]

def addressRdlen (qtype : UInt16) : Option ℕ :=
  if qtype = qtypeA then some 4 else if qtype = qtypeAaaa then some 16 else none

def addressFromRdata (rdata : Bytes) : Option IpAddr :=
  if rdata.length = 4 then some (.v4 (BitVec.ofNat 32 (fromBe rdata)))
  else if rdata.length = 16 then some (.v6 (BitVec.ofNat 128 (fromBe rdata)))
  else none

inductive AddressResponseOutcome where
  | answers (addresses : List IpAddr) (minTtl : UInt32)
  | noRecords
  | truncated
  | failed (rcode : UInt8)
  | mismatch
  deriving DecidableEq

def acceptedAddress (packet : Bytes) (owners : List Text) (rdlen : ℕ) (rr : AnswerRr) :
    Option IpAddr :=
  if rr.owner.any owners.contains then
    (slice packet rr.rdataStart rdlen).bind addressFromRdata
  else none

def collectAddresses (packet : Bytes) (owners : List Text) (rdlen : ℕ) (records : List AnswerRr) :
    List IpAddr × UInt32 :=
  records.foldl (fun (addresses, minTtl) rr =>
    match acceptedAddress packet owners rdlen rr with
    | none => (addresses, minTtl)
    | some address => (addresses ++ [address], min minTtl rr.ttl)) ([], 0xFFFFFFFF)

def expectedName (expectQname : Text) : Text :=
  toAsciiLowercase ((stripSuf ['.'] expectQname).getD expectQname)

def readAddresses (qtype : UInt16) (rdlen : ℕ) (packet : Bytes) (q : ParsedQuestion) :
    AddressResponseOutcome :=
  let records := readAnswerRecords packet q.questionEnd (u16At packet 6).toNat
  let owners := answerOwnerClosure packet records q.qname
  let (addresses, minTtl) := collectAddresses packet owners rdlen <|
    records.filter fun r => r.rtype = qtype && r.rclass = classIn && r.rdlen = rdlen
  if addresses = [] then .noRecords
  else .answers addresses (if minTtl = 0xFFFFFFFF then 0 else minTtl)

def parseAddressResponse (expectId : UInt16) (expectQname : Text) (qtype : UInt16)
    (packet : Bytes) : AddressResponseOutcome :=
  match addressRdlen qtype with
  | none => .mismatch
  | some rdlen =>
    if packet.length < dnsHeaderLen then .mismatch
    else if u16At packet 0 ≠ expectId then .mismatch
    -- a query, not a response
    else if packet.getD 2 0 &&& 0x80 = 0 then .mismatch
    else
      match parseQuestion packet with
      | none => .mismatch
      | some q =>
        if q.qname ≠ expectedName expectQname ∨ q.qtype ≠ qtype then .mismatch
        else if packet.getD 2 0 &&& 0x02 ≠ 0 then .truncated
        else
          let rcode := packet.getD 3 0 &&& 0x0F
          if rcode = rcodeNxdomain then .noRecords
          else if rcode ≠ 0 then .failed rcode
          else readAddresses qtype rdlen packet q

def dottedKey (labels : List Bytes) : Bytes :=
  labels.flatMap fun label => label.map lowerByte ++ [46]

def questionLabels (packet : Bytes) : Option (List Bytes) :=
  followLabels (fun _ => true) packet dnsHeaderLen 0 0

def questionKey (packet : Bytes) : Option (Bytes × UInt16 × UInt16) :=
  if packet.length < dnsHeaderLen ∨ u16At packet 4 = 0 then none
  else
    match questionLabels packet, skipEncodedName packet dnsHeaderLen with
    | some labels, some afterName =>
      if packet.length < afterName + 4 then none
      else some (dottedKey labels, u16At packet afterName, u16At packet (afterName + 2))
    | _, _ => none

end NetRuleRouter.DnsMessages
