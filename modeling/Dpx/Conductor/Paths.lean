/-
# `Dpx.Conductor.Paths` — the wire path and the direct path of a proposal

`Node.runOnce` hands a proposal over in one of two ways.  A direct proposer takes it as it
is (`ProposeDirect`); any other proposer takes `Marshal` of it (`Propose`), and decodes it
again: the two direct proposers in `Propose`, the Raft node in `dpxFSM.applyBatch`.

Nothing before `Marshal` looks at the size of a key, of a value or of the proposal, while
`Marshal` writes every length through a conversion to `uint16`.  `wire_path_iff`: the wire
path gives the proposal back exactly if it `Fits`, and then both paths decide and apply the
same.  Otherwise they need not, and no error need tell (`long_value_dropped`).
-/
import Dpx.Shared.Wire
import Dpx.Conductor.Insert
import Dpx.Conductor.Sharded

namespace Dpx

/-! ## `Propose` -/

/-- `Propose` of both direct proposers: decode, then go on as `ProposeDirect`. -/
def proposeVia {R : Type} (proposeDirect : Proposal → R) (data : Bytes) :
    Except UnmarshalError R :=
  match Proposal.unmarshal data with
  | .error e => .error e
  | .ok p => .ok (proposeDirect p)

section
variable {σ : Type} [StorageEngine σ]

/-- `ProposeDirect` of a caller that is alone: its entry makes up the batch. -/
def DirectProposer.proposeDirect (d : DirectProposer σ) (p : Proposal) :
    ApplyResult × DirectProposer σ :=
  let (results, d) := d.applyBatchDirect [p]
  (results.headD .ok, d)

def DirectProposer.propose (d : DirectProposer σ) (data : Bytes) :
    Except UnmarshalError (ApplyResult × DirectProposer σ) :=
  proposeVia d.proposeDirect data

def ShardedDirectProposer.propose (s : ShardedDirectProposer σ) (data : Bytes) :
    Except UnmarshalError (ApplyResult × ShardedDirectProposer σ) :=
  proposeVia s.applyInline data

end

theorem proposeVia_of_fits {R : Type} (proposeDirect : Proposal → R) {p : Proposal}
    (h : p.Fits) : proposeVia proposeDirect p.marshal = .ok (proposeDirect p) := by
  rw [proposeVia, (Proposal.unmarshal_marshal_iff p).mpr h]

theorem proposalOf_of_fits {p : Proposal} (h : p.Fits) (index : UInt64) :
    DpxFSM.proposalOf ⟨index, .command, p.marshal⟩ = some p := by
  rw [DpxFSM.proposalOf, if_neg (fun hne => hne rfl), (Proposal.unmarshal_marshal_iff p).mpr h]

/-! ## The two paths -/

/-- **The two paths.**  The wire path gives a proposal back if and only if all its lengths
fit sixteen bits.  Then every proposer treats the encoding as the proposal itself: the two
direct proposers, and a log entry of the replicated machine. -/
theorem wire_path_iff (p : Proposal) :
    (Proposal.unmarshal p.marshal = .ok p ↔ p.Fits) ∧
    (p.Fits →
      (∀ (σ : Type) [StorageEngine σ] (d : DirectProposer σ),
        d.propose p.marshal = .ok (d.proposeDirect p)) ∧
      (∀ (σ : Type) [StorageEngine σ] (s : ShardedDirectProposer σ),
        s.propose p.marshal = .ok (s.applyInline p)) ∧
      ∀ index, DpxFSM.proposalOf ⟨index, .command, p.marshal⟩ = some p) := by
  refine ⟨p.unmarshal_marshal_iff, fun h => ⟨?_, ?_, proposalOf_of_fits h⟩⟩
  · intro σ _ d
    exact proposeVia_of_fits d.proposeDirect h
  · intro σ _ s
    exact proposeVia_of_fits s.applyInline h

/-! ## A value that is too long -/

/-- One `Set`. -/
def oneSet (v : Bytes) : Proposal := ⟨[], [⟨.set, [0x6b], v⟩], 0, 0⟩

/-- The length of a value of 65536 bytes is cut to zero, and the value is left over. -/
theorem marshal_oneSet {v : Bytes} (hv : v.length = 65536) :
    (oneSet v).marshal = (oneSet []).marshal ++ v := by
  have hlen : UInt16.ofNat v.length = UInt16.ofNat ([] : Bytes).length := by
    rw [hv]
    rfl
  simp only [Proposal.marshal, oneSet, Wire.putWrite, List.flatMap_cons, List.flatMap_nil,
    List.append_nil, List.append_assoc, hlen, List.length_singleton]

theorem oneSet_ne {v : Bytes} (hv : v.length = 65536) : oneSet [] ≠ oneSet v := by
  intro h
  have hlens := congrArg (fun p => p.writes.map fun w => w.value.length) h
  simp only [oneSet, List.map_cons, List.map_nil, List.length_nil, hv] at hlens
  cases hlens

theorem fits_oneSet_nil : (oneSet []).Fits := by
  constructor <;> decide

/-- A transaction sets 65536 zero bytes; the wire path makes it an empty value. -/
theorem long_value_dropped :
    (DpxTx.after State.empty [.set [0x6b] (List.replicate 65536 0)]).propose 0 0 =
      .ok (some (oneSet (List.replicate 65536 0))) ∧
    Proposal.unmarshal (oneSet (List.replicate 65536 0)).marshal = .ok (oneSet []) ∧
    oneSet [] ≠ oneSet (List.replicate 65536 0) := by
  refine ⟨rfl, ?_, oneSet_ne List.length_replicate⟩
  rw [marshal_oneSet List.length_replicate]
  exact fits_oneSet_nil.unmarshal_append _

end Dpx
