import Reverse.Library.Runs
import Reverse.Watson.Automaton

/-!
# The write-through automaton of Watson

With this policy every write goes to the memory.  The automaton trusts the
caches that have written or read the byte since its last write.  These are the
ones that have its latest version, unless bytes are allocated along with
others: the automaton does not know that event.
-/

namespace Reverse.Watson

open Function

/-- The part of `mem_data_t` that the automaton uses, and the counters
`stats.false_positive` of the caches. -/
structure ThroughData where
  state : DfaState
  bitmapReaders : BitVec 32
  writer : Access
  badAddr : Bool
  falsePositive : BitVec 8 → Nat

def ThroughData.zero : ThroughData := ⟨.init, 0, .zero, false, fun _ => 0⟩

/-- The program exits if the writers are in the wrong order. -/
def watsonDfaWritethrough (data : ThroughData) (call : Call) : Option ThroughData :=
  let id := call.access.id
  if data.badAddr then some data
  else
    match data.state, call.event with
    | .init, .writeReq =>
      some { data with
        state := .analyse, writer := call.access, bitmapReaders := readerBit id }
    | .analyse, .writeReq =>
      if call.access.posOrder < data.writer.posOrder then none
      else some { data with writer := call.access, bitmapReaders := readerBit id }
    | .analyse, .readReq =>
      some { data with bitmapReaders := data.bitmapReaders ||| readerBit id }
    | .analyse, .readAck =>
      if inReaders data.bitmapReaders id then some data
      else
        some { data with
          state := .problem
          badAddr := true
          falsePositive :=
            if orderUndefined data.writer call.access then
              update data.falsePositive id (data.falsePositive id + 1)
            else data.falsePositive }
    | _, _ => some data

/-- What happens to a byte: the number of its latest version, which is the one
in the memory, the versions of the caches, and whether one has read another
version. -/
structure Through where
  latest : Nat
  copy : BitVec 8 → Nat
  stale : Bool

def Through.step (byte : Through) (call : Call) : Through :=
  let id := call.access.id
  match call.event with
  | .writeReq =>
    { byte with latest := byte.latest + 1, copy := update byte.copy id (byte.latest + 1) }
  | .readReq | .allocReq => { byte with copy := update byte.copy id byte.latest }
  | .readAck => { byte with stale := byte.stale || byte.copy id ≠ byte.latest }
  | .modifyAck | .writeAck => byte

def throughRun (calls : List Call) : Option ThroughData :=
  calls.foldlM watsonDfaWritethrough .zero

def throughOf (calls : List Call) : Through :=
  calls.foldl Through.step ⟨0, fun _ => 0, false⟩

/-- The caches that the automaton trusts have the latest version, and if the
events are `exact` no other ones have it. -/
inductive Follows (exact : Prop) (byte : Through) (data : ThroughData) : Prop where
  | init (state : data.state = .init) (good : data.badAddr = false)
      (fresh : byte.stale = false) (current : ∀ id, byte.copy id = byte.latest)
  | analyse (state : data.state = .analyse) (good : data.badAddr = false)
      (fresh : byte.stale = false) (bound : ∀ id, byte.copy id ≤ byte.latest)
      (trusted : ∀ id, id.toNat < 32 →
        inReaders data.bitmapReaders id = true → byte.copy id = byte.latest)
      (known : exact → ∀ id, id.toNat < 32 →
        byte.copy id = byte.latest → inReaders data.bitmapReaders id = true)
  | problem (state : data.state = .problem) (bad : data.badAddr = true)
      (justified : exact → byte.stale = true)

variable {exact : Prop} {byte : Through} {data next : ThroughData} {call : Call} {access : Access}

theorem Follows.write (fresh : byte.stale = false) (bound : ∀ id, byte.copy id ≤ byte.latest)
    (state : next.state = .analyse) (good : next.badAddr = false)
    (readers : next.bitmapReaders = readerBit access.id) :
    Follows exact (byte.step ⟨.writeReq, access⟩) next := by
  refine .analyse state good fresh (fun id => ?_) (fun id small isTrusted => ?_)
    fun _ id small latest => ?_
  · have before := bound id
    simp only [Through.step, update_apply]
    split <;> omega
  · rw [readers, inReaders_single small] at isTrusted
    simp only [Through.step, isTrusted, update_self]
  · rw [readers, inReaders_single small]
    by_contra other
    have before := bound id
    simp only [Through.step, update_of_ne other] at latest
    omega

theorem Follows.step (follows : Follows exact byte data) (small : call.access.id.toNat < 32)
    (refills : exact → call.event ≠ .allocReq)
    (stepped : watsonDfaWritethrough data call = some next) :
    Follows exact (byte.step call) next := by
  obtain ⟨event, access⟩ := call
  unfold watsonDfaWritethrough at stepped
  cases follows with
  | problem state bad justified =>
    rw [if_pos bad] at stepped
    cases stepped
    refine .problem state bad fun isExact => ?_
    cases event <;> simp [Through.step, justified isExact]
  | init state good fresh current =>
    rw [if_neg (ne_true_of_eq_false good), state] at stepped
    cases event with
    | writeReq =>
      cases stepped
      exact .write fresh (fun id => Nat.le_of_eq (current id)) rfl good rfl
    | _ =>
      cases stepped
      refine .init state good ?_ fun id => ?_
      all_goals simp [Through.step, update_apply, fresh, current]
  | analyse state good fresh bound trusted known =>
    rw [if_neg (ne_true_of_eq_false good), state] at stepped
    cases event with
    | writeReq =>
      obtain ⟨-, same⟩ := Option.ite_none_left_eq_some.mp stepped
      cases same
      exact .write fresh bound rfl good rfl
    | readReq =>
      cases stepped
      refine .analyse rfl good fresh ?_ ?_ ?_
      all_goals
        simp only [Through.step, update_apply]
        grind [inReaders_or]
    | allocReq =>
      cases stepped
      refine .analyse state good fresh ?_ ?_ fun isExact => absurd rfl (refills isExact)
      all_goals
        simp only [Through.step, update_apply]
        grind
    | readAck =>
      by_cases isTrusted : inReaders data.bitmapReaders access.id = true
      · cases (if_pos isTrusted).symm.trans stepped
        exact .analyse state good (by simp [Through.step, fresh, trusted _ small isTrusted])
          bound trusted known
      · cases (if_neg isTrusted).symm.trans stepped
        refine .problem rfl rfl fun isExact => ?_
        have stale := mt (known isExact _ small) isTrusted
        simp [Through.step, stale]
    | modifyAck | writeAck =>
      cases stepped
      exact .analyse state good fresh bound trusted known

def NoneAllocated (calls : List Call) : Prop :=
  ∀ call ∈ calls, call.event ≠ .allocReq

/-- Every stale read is found, and nothing else unless bytes are allocated. -/
theorem writethrough_problem {calls : List Call}
    (small : ∀ call ∈ calls, call.access.id.toNat < 32) (ran : throughRun calls = some data) :
    ((throughOf calls).stale = true → data.state = .problem) ∧
      (NoneAllocated calls → data.state = .problem → (throughOf calls).stale = true) := by
  have follows : Follows (NoneAllocated calls) (throughOf ([] ++ calls)) data := by
    refine Runs.foldlM_history (fun seen => Follows _ (throughOf seen)) ?_
      (.init rfl rfl rfl fun _ => rfl) ran
    intro seen call before after member kept stepped
    rw [throughOf, List.foldl_append]
    exact kept.step (small call member) (fun exact => exact call member) stepped
  rw [List.nil_append] at follows
  cases follows with
  | problem state _ justified => exact ⟨fun _ => state, fun exact _ => justified exact⟩
  | init state _ fresh | analyse state _ fresh =>
    rw [fresh, state]
    exact ⟨nofun, fun _ => nofun⟩

/-- A cache reads its copy after another one has written the byte. -/
theorem writethrough_problem_stale :
    let calls : List Call := [⟨.writeReq, ⟨1, 1, 1, 0⟩⟩, ⟨.readReq, ⟨2, 2, 2, 1⟩⟩,
      ⟨.writeReq, ⟨1, 3, 3, 2⟩⟩, ⟨.readAck, ⟨2, 4, 4, 3⟩⟩]
    (throughOf calls).stale = true :=
  (writethrough_problem (by decide) rfl).2 (by unfold NoneAllocated; decide) rfl

end Reverse.Watson
