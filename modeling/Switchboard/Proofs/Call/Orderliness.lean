import Switchboard.Call.Exchange
import Switchboard.Proofs.Call.Racing
import Switchboard.Proofs.Hub.Dialing

/-! Calls keep a hub orderly.

All that a call does on a hub is to ask for a connection, to leave a dial, to begin on a connection
and to be given up there. What these four preserve (`Hub.Kept`), a look at a call preserves
(`Relay.go_kept`), and so does giving it up (`Relay.dropService_kept`). That a manager stays with
its dial that is under way is preserved by them (`Course.orderly_kept`). -/
namespace Switchboard
open Redirect

/-- Whatever calls do on a hub, this goes on to hold. -/
structure Redirect.Hub.Kept (P : Hub → Prop) : Prop where
  ask : ∀ {h : Hub} (manager party now : Nat), P h → P (h.ask manager party now).2
  leave : ∀ {h : Hub} (dial place : Nat), P h → P (h.leave dial place)
  beginCall : ∀ {h : Hub} (connection party : Nat) (method : String) (arguments : List Json.Raw),
    P h → P (h.beginCall connection party method arguments).2
  abandonCall : ∀ {h : Hub} (connection key : Nat), P h → P (h.abandonCall connection key)
  /-- It says nothing about what is counted and warned of. -/
  beside : ∀ {h : Hub} (metrics : Metrics) (warnings : List Warning),
    P h → P { h with metrics, warnings }

/-! ### Looks at calls -/

section
variable {P : Hub → Prop} (hk : Hub.Kept P)
include hk

namespace Forwarding
variable {f : Forwarding} {h : Hub} {party now : Nat}

theorem drop_kept (hp : P h) : P (f.drop h) := by
  unfold drop
  split
  · exact hp
  · exact hk.leave _ _ hp
  · exact hk.abandonCall _ _ hp

theorem collect_kept (hp : P h) : P (f.collect h).2 := by
  unfold collect
  split
  · split
    · exact hk.abandonCall _ _ hp
    · exact hp
  · exact hp

theorem send_kept (hp : P h) (connection : Nat) : P (f.send h party connection).2 :=
  collect_kept hk (hk.beginCall connection party f.method f.arguments hp)

theorem go_kept (hp : P h) : P (f.go h party now).2 := by
  unfold go
  split
  · have hask := hk.ask f.manager party now hp
    generalize h.ask f.manager party now = granted at hask
    obtain ⟨access, h'⟩ := granted
    cases access with
    | connected c => exact send_kept hk hask c
    | refused => exact hask
    | waits => exact hask
  · split
    · exact hp
    · exact send_kept hk hp _
    · exact hp
  · exact collect_kept hk hp

theorem invoke_kept (hp : P h) (cancelled : Bool) : P (f.invoke h cancelled party now).2 := by
  unfold invoke
  split
  · exact drop_kept hk hp
  · have hgo : P (f.go h party now).2 := go_kept hk hp
    generalize f.go h party now = went at hgo
    split
    · exact hk.beside _ _ hgo
    · exact hgo

end Forwarding

namespace Relay
variable {r : Relay} {party now : Nat}

theorem answer?_kept (hp : P r.hub) (e : Entry) : P (r.answer? e party now).2.2.hub := by
  unfold answer?
  split
  · exact hp
  · rename_i f _
    have hinvoke : P (f.invoke r.hub (r.tokens.isCancelled e.call.token) party now).2 :=
      Forwarding.invoke_kept hk hp _
    split <;> rename_i heq <;> rw [heq] at hinvoke <;> exact hinvoke

theorem dropService_kept (hp : P r.hub) (s : Service) : P (r.dropService s).hub := by
  cases s with
  | forwarding f => exact Forwarding.drop_kept hk hp
  | replying => exact hp

theorem observed_kept (hp : P r.hub) (c : Call) (a : Answer) : P (r.observed c a).hub := by
  have hcounted := hk.beside (observe r.hub.metrics c.name.namespaceName a) r.hub.warnings hp
  unfold observed
  split
  · exact hk.beside _ _ hcounted
  · exact hcounted

theorem go_kept (hp : P r.hub) (e : Entry) : P (r.go e party now).2.hub := by
  have hanswer : P (r.answer? e party now).2.2.hub := answer?_kept hk hp e
  unfold go
  generalize r.answer? e party now = answered at hanswer
  obtain ⟨answer?, e', r'⟩ := answered
  dsimp only
  split
  · exact hanswer
  · refine observed_kept hk ?_ ..
    split
    · exact hanswer
    · exact dropService_kept hk hanswer _
    · exact dropService_kept hk hanswer _

theorem drops_kept (hp : P r.hub) (entries : List Entry) : P (entries.foldl drop r).hub := by
  induction entries generalizing r with
  | nil => exact hp
  | cons e rest ih => exact ih (dropService_kept hk hp e.service)

theorem enter_kept (hp : P r.hub) (c : Call) : P (r.enter c party now).2.hub := by
  unfold enter
  split
  · exact observed_kept hk hp ..
  · rename_i free _
    split
    · exact observed_kept hk hp ..
    · exact go_kept (r := { r with free }) hk hp ⟨c, now + c.timeoutMs, r.serve c now⟩

end Relay

theorem Slot.go_kept {r : Relay} {party now : Nat} (hp : P r.hub) (s : Slot) (parent : Token) :
    P (s.go r parent party now).2.hub := by
  cases s with
  | finished => exact hp
  | running id? e => exact Relay.go_kept hk hp e
  | fresh raw =>
    simp only [go, begin_]
    split
    · exact hp
    · split
      · exact hp
      · rename_i call classifier _
        exact Relay.enter_kept (r := { r with tokens := _, classifier }) hk hp call

end

/-! ### Managers and their dials -/

namespace Redirect.Course
variable {h : Hub} {made : List (Nat × Nat)} {a : Act} {s : Course}

/-- What goes on besides calls keeps the hub orderly. -/
theorem Orderly.act (ho : Orderly ⟨h, made, [], []⟩) (hs : step ⟨h, made, [], []⟩ a = some s) :
    Orderly ⟨s.hub, s.made, [], []⟩ := by
  obtain ⟨es, -, hchanges⟩ := step_changes ho.owned hs
  exact (ho.changes hchanges).steady ⟨rfl, rfl, rfl, .of_eq rfl⟩

/-- **So do calls.** -/
theorem orderly_kept (made : List (Nat × Nat)) : Hub.Kept fun h => Orderly ⟨h, made, [], []⟩ where
  ask manager party now ho := ho.act (a := .want manager party now) rfl
  leave _ _ ho := ho.steady ⟨rfl, Hub.fates_modify fun _ => ⟨rfl, rfl⟩, rfl, .of_eq rfl⟩
  beginCall connection party method arguments ho :=
    ho.act (a := .beginCall connection party method arguments) rfl
  abandonCall connection key ho := ho.act (a := .abandonCall connection key) rfl
  beside _ _ ho := ho.steady ⟨rfl, rfl, rfl, .of_eq rfl⟩

end Redirect.Course
end Switchboard
