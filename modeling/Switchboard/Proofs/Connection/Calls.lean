import Switchboard.Proofs.Connection.Moves

/-! What a move does to the calls.

The calls and the pending ids are changed in few ways: an entry is put on or taken off, a stage
is set, a reply is handed over. Here is every move as seen from the calls (`Affects`). -/
namespace Switchboard.Redirect.Connection
open Json

variable {c c' : Connection} {k : Caller} {key : Nat}

/-! ### One move, as seen from the calls -/

/-- The connections agree in all that concerns the calls. -/
structure Agrees (c c' : Connection) : Prop where
  callers : c'.callers = c.callers
  pending : c'.pending = c.pending
  nextId : c'.nextId = c.nextId

/-- The connection after an outcome has been handed to the call that waits under the id. -/
def handOver (c : Connection) (id key : Nat) (outcome : Outcome) : Connection :=
  (c.forget id).update key fun k => { k with reply := .answered outcome }

/-- What a move does to the calls, and what is seen of it. -/
inductive Affects (c : Connection) : Move → Connection → List Event → Prop
  | entered {key : Nat} {method : String} {arguments : List Raw}
      (hk : ∀ k ∈ c.callers, k.key ≠ key) :
      Affects c (.enter key method arguments) (c.enter key method arguments) [.entered key]
  | advanced {key : Nat} {k : Caller} {c' : Connection} {es : List Event}
      (hk : c.caller? key = some k) (h : Advances c k c' es) : Affects c (.call key) c' es
  | abandoned {key : Nat} {k : Caller} (hk : c.caller? key = some k) :
      Affects c (.abandon key) (c.abandon key) [.abandoned key k.stage.id?]
  | answered {line : List Char} {id key : Nat} {outcome : Outcome} {c' : Connection}
      (hd : Delivery.ofFrame line = .answer id outcome)
      (hp : c.pending.find? (fun p => p.1 == id) = some (id, key))
      (h : Agrees (c.handOver id key outcome) c') :
      Affects c .readFrame c' [.read line (some (id, key))]
  | cleared {m : Move} {c' : Connection} (h : Agrees c.clear c') : Affects c m c' []
  | others {m : Move} {c' : Connection} {es : List Event} (h : Agrees c c')
      (he : ∀ e ∈ es, e.Quiet) : Affects c m c' es

theorem Agrees.refl (c : Connection) : Agrees c c := ⟨rfl, rfl, rfl⟩

theorem Affects.silent {m : Move} {c' : Connection} {es : List Event} (h : Agrees c c')
    (he : es = []) : Affects c m c' es :=
  .others h fun e hm => by rw [he] at hm; cases hm

theorem find?_pending {id : Nat} {p : Nat × Nat}
    (h : c.pending.find? (fun p => p.1 == id) = some p) : p = (id, p.2) := by
  have : p.1 = id := by simpa using List.find?_some h
  rw [← this]

/-- A frame that is for no pending call changes nothing. -/
theorem deliver_none {line : List Char} (h : c.addressee? line = none) (rest : List UInt8) :
    (deliver { c with received := rest } line).1 = { c with received := rest } := by
  unfold addressee? at h
  unfold deliver
  cases hd : Delivery.ofFrame line with
  | undecodable => rfl
  | unmatched error? => cases error? <;> rfl
  | answer id outcome =>
    rw [hd] at h
    dsimp only at h ⊢
    rw [reply, h]

/-- A frame that is for a pending call is handed to it. -/
theorem deliver_some {line : List Char} {p : Nat × Nat} (h : c.addressee? line = some p)
    (rest : List UInt8) :
    ∃ outcome, Delivery.ofFrame line = .answer p.1 outcome ∧
      c.pending.find? (fun q => q.1 == p.1) = some p ∧
      (deliver { c with received := rest } line).1 =
        { c.handOver p.1 p.2 outcome with received := rest } := by
  unfold addressee? at h
  unfold deliver
  cases hd : Delivery.ofFrame line with
  | undecodable =>
    rw [hd] at h
    cases h
  | unmatched error? =>
    rw [hd] at h
    cases h
  | answer id outcome =>
    rw [hd] at h
    dsimp only at h ⊢
    obtain ⟨id', key⟩ := p
    cases find?_pending h
    exact ⟨outcome, rfl, h, by rw [reply, h]; rfl⟩

theorem Closes.affects {k : Closer} (h : Closes c k c') : Affects c (.close k.key) c' [] := by
  cases h with
  | clears => exact .cleared ⟨rfl, rfl, rfl⟩
  | _ => exact .silent ⟨rfl, rfl, rfl⟩ rfl

/-- **Every move is one of these.** -/
theorem step_affects {m : Move} (h : c.step m = some c') : Affects c m c' (c.events m c') := by
  cases step_moves h with
  | enters hk => exact .entered hk
  | calls hk ha =>
    rw [ha.seen hk]
    exact .advanced hk ha
  | @abandons key =>
    cases hk : c.caller? key with
    | none =>
      rw [abandon, hk]
      exact .silent (.refl c) (by simp only [events, hk]; rfl)
    | some k =>
      simp only [events, hk]
      exact .abandoned hk
  | closes _ hc => exact hc.affects
  | takes _ hq =>
    simp only [events, hq]
    exact .others ⟨rfl, rfl, rfl⟩ (by simp [Event.Quiet])
  | sends => exact .others ⟨rfl, rfl, rfl⟩ (by simp [events, Event.Quiet])
  | @reads line rest _ hi =>
    simp only [events, hi]
    cases ha : c.addressee? line with
    | none =>
      rw [deliver_none ha]
      exact .others ⟨rfl, rfl, rfl⟩ (by simp [Event.Quiet])
    | some p =>
      obtain ⟨outcome, hd, hp, he⟩ := deliver_some ha rest
      rw [he]
      exact .answered hd hp ⟨rfl, rfl, rfl⟩
  | readsNoMore _ hi =>
    refine .silent ⟨rfl, rfl, rfl⟩ ?_
    rcases hi with hi | hi <;> simp only [events, hi]
  | clears => exact .cleared ⟨rfl, rfl, rfl⟩
  | _ => exact .silent ⟨rfl, rfl, rfl⟩ rfl

end Switchboard.Redirect.Connection
