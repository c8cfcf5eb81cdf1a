/-
# `Dpx.Shared.Proposal` — proposals, their wire format and their answers

`shared/types.go` and `shared/proposal.go`.  A proposal is what one transaction
asks for: the read entries its verdict depends on and the writes to apply.  On
the Raft path it travels as bytes; `Proposal.unmarshal` is the decoder with its
positions, its five bound checks and their texts.

A raw access outside the buffer is a run-time panic in Go.  Here it is one more
error, `outOfRange`, so that "reads no byte outside" is a statement about the
decoder's answer and not about the memory model.
-/
import Dpx.Engine.Interface

namespace Dpx

/-! ## Entries -/

structure ReadEntry where
  key : Key
  epoch : UInt64
  isDebit : Bool
  deriving DecidableEq, Repr

/-- The `WriteOp` byte.  Four values have names; a log can carry any other. -/
inductive WriteOp where
  | set
  | delete
  | credit
  | debit
  | other (b : UInt8) (h : b ≠ 1 ∧ b ≠ 2 ∧ b ≠ 3 ∧ b ≠ 4)
  deriving DecidableEq, Repr

namespace WriteOp

def ofByte (b : UInt8) : WriteOp :=
  if h1 : b = 1 then .set
  else if h2 : b = 2 then .delete
  else if h3 : b = 3 then .credit
  else if h4 : b = 4 then .debit
  else .other b ⟨h1, h2, h3, h4⟩

def toByte : WriteOp → UInt8
  | .set => 1
  | .delete => 2
  | .credit => 3
  | .debit => 4
  | .other b _ => b

/-- Whether the applying switch has a case for it. -/
def known : WriteOp → Bool
  | .other _ _ => false
  | _ => true

end WriteOp

structure WriteEntry where
  op : WriteOp
  key : Key
  value : Bytes
  deriving DecidableEq, Repr

namespace WriteEntry

def isCredit (w : WriteEntry) : Bool := w.op = .credit

end WriteEntry

structure Proposal where
  readSet : List ReadEntry
  writes : List WriteEntry
  timestampWall : UInt64 := 0
  timestampCounter : UInt16 := 0
  deriving DecidableEq, Repr

namespace Proposal

/-- Some write of the proposal names `k`. -/
def writesKey (p : Proposal) (k : Key) : Bool := p.writes.any fun w => w.key = k

/-- The proposals a transaction can build (`dpxTx`): only the four named
operations, and no write into the reserved key space. -/
structure WellFormed (p : Proposal) : Prop where
  known : ∀ w ∈ p.writes, w.op.known = true
  user : ∀ w ∈ p.writes, isReserved w.key = false

instance (p : Proposal) : Decidable p.WellFormed :=
  decidable_of_iff
    ((∀ w ∈ p.writes, w.op.known = true) ∧ ∀ w ∈ p.writes, isReserved w.key = false)
    ⟨fun h => ⟨h.1, h.2⟩, fun h => ⟨h.known, h.user⟩⟩

end Proposal

/-! ## Decoding -/

/-- Why a buffer is rejected, with the entry number and the position. -/
inductive UnmarshalError where
  | shortBuffer (len : Nat)
  | readKeyLength (i pos : Nat)
  | readEntry (i pos : Nat)
  | writesLength (pos : Nat)
  | writeOp (i pos : Nat)
  | writeKey (i pos : Nat)
  | writeValue (i pos : Nat)
  | outOfRange
  deriving DecidableEq, Repr

def minProposalBytes : Nat := 14

namespace Wire

variable (data : Bytes)

/-- `data[pos]`. -/
def byteAt (pos : Nat) : Except UnmarshalError UInt8 :=
  match data[pos]? with
  | some b => .ok b
  | none => .error .outOfRange

/-- `data[pos : pos+n]`. -/
def sliceAt (pos n : Nat) : Except UnmarshalError Bytes :=
  if pos + n ≤ data.length then .ok ((data.drop pos).take n) else .error .outOfRange

/-- `binary.LittleEndian.Uint16(data[pos:])`. -/
def uint16At (pos : Nat) : Except UnmarshalError UInt16 :=
  if pos + 2 ≤ data.length then .ok (LittleEndian.uint16 (data.drop pos)) else .error .outOfRange

/-- `binary.LittleEndian.Uint64(data[pos:])`. -/
def uint64At (pos : Nat) : Except UnmarshalError UInt64 :=
  if pos + 8 ≤ data.length then .ok (LittleEndian.uint64 (data.drop pos)) else .error .outOfRange

/-- The loop over read entries: how many are left, the entry number, the position. -/
def readEntries : Nat → Nat → Nat → Except UnmarshalError (List ReadEntry × Nat)
  | 0, _, pos => .ok ([], pos)
  | n + 1, i, pos => do
      if pos + 2 > data.length then throw (.readKeyLength i pos)
      let kLen := (← uint16At data pos).toNat
      let pos := pos + 2
      if pos + kLen + 8 + 1 > data.length then throw (.readEntry i pos)
      let key ← sliceAt data pos kLen
      let pos := pos + kLen
      let epoch ← uint64At data pos
      let pos := pos + 8
      let flag ← byteAt data pos
      let (rest, pos) ← readEntries n (i + 1) (pos + 1)
      return (⟨key, epoch, flag != 0⟩ :: rest, pos)

/-- The loop over write entries. -/
def writeEntries : Nat → Nat → Nat → Except UnmarshalError (List WriteEntry × Nat)
  | 0, _, pos => .ok ([], pos)
  | n + 1, i, pos => do
      if pos + 1 + 2 > data.length then throw (.writeOp i pos)
      let op ← byteAt data pos
      let pos := pos + 1
      let kLen := (← uint16At data pos).toNat
      let pos := pos + 2
      if pos + kLen + 2 > data.length then throw (.writeKey i pos)
      let key ← sliceAt data pos kLen
      let pos := pos + kLen
      let vLen := (← uint16At data pos).toNat
      let pos := pos + 2
      if pos + vLen > data.length then throw (.writeValue i pos)
      let value ← sliceAt data pos vLen
      let (rest, pos) ← writeEntries n (i + 1) (pos + vLen)
      return (⟨.ofByte op, key, value⟩ :: rest, pos)

end Wire

open Wire in
/-- `Proposal.Unmarshal` into a zero proposal; the empty buffer is a no-op. -/
def Proposal.unmarshal (data : Bytes) : Except UnmarshalError Proposal := do
  if data.length < minProposalBytes then
    if data.length = 0 then return ⟨[], [], 0, 0⟩
    throw (.shortBuffer data.length)
  let wall ← uint64At data 0
  let counter ← uint16At data 8
  let readLen := (← uint16At data 10).toNat
  let (readSet, pos) ← readEntries data readLen 0 12
  if pos + 2 > data.length then throw (.writesLength pos)
  let writeLen := (← uint16At data pos).toNat
  let (writes, _) ← writeEntries data writeLen 0 (pos + 2)
  return ⟨readSet, writes, wall, counter⟩

/-! ## Encoding -/

namespace Wire

def putRead (re : ReadEntry) : Bytes :=
  LittleEndian.putUint16 (UInt16.ofNat re.key.length) ++ re.key ++
    LittleEndian.putUint64 re.epoch ++ [if re.isDebit then 1 else 0]

def putWrite (w : WriteEntry) : Bytes :=
  [w.op.toByte] ++ LittleEndian.putUint16 (UInt16.ofNat w.key.length) ++ w.key ++
    LittleEndian.putUint16 (UInt16.ofNat w.value.length) ++ w.value

end Wire

/-- `Proposal.Marshal`: every length goes through a 16-bit conversion. -/
def Proposal.marshal (p : Proposal) : Bytes :=
  LittleEndian.putUint64 p.timestampWall ++ LittleEndian.putUint16 p.timestampCounter ++
    LittleEndian.putUint16 (UInt16.ofNat p.readSet.length) ++ p.readSet.flatMap Wire.putRead ++
    LittleEndian.putUint16 (UInt16.ofNat p.writes.length) ++ p.writes.flatMap Wire.putWrite

/-! ## Answers -/

/-- The errors a proposal can be answered with. -/
inductive ApplyError where
  | corruptEntry (index : UInt64) (cause : UnmarshalError)
  | unknownWriteOp (op : UInt8) (index : UInt64)
  | engine (e : EngineError)
  | walSync (index : UInt64) (e : EngineError)
  deriving DecidableEq, Repr

structure ApplyResult where
  conflict : Bool
  err : Option ApplyError
  deriving DecidableEq, Repr

namespace ApplyResult

/-- The zero result: committed. -/
def ok : ApplyResult := ⟨false, none⟩

def conflicted : ApplyResult := ⟨true, none⟩

def failed (e : ApplyError) : ApplyResult := ⟨false, some e⟩

theorem ok_ne_conflicted : ok ≠ conflicted := by decide

end ApplyResult

inductive SyncPolicy where
  | syncBatch
  | syncFull
  | syncNone
  deriving DecidableEq, Repr

end Dpx
