import Switchboard.Proofs.Call.Racing

/-! Calls that are given up together.

What a hub *loses* with calls is what they hold on it, and nothing else (`Hub.Loses`): their seats
are empty and their pending entries are gone, while the managers, the dials, the connections and
the seats and calls of everybody else stay as they are. Giving up one call loses that call
(`Relay.drop_loses`), and giving up several, one after the other, loses them all
(`Relay.drops_loses`). -/
namespace Switchboard
open Redirect

/-- The dial without those who wait for it. -/
def Redirect.Dial.bare (d : Dial) : Dial := { d with places := [], free := [] }

/-- The key that a call has on this connection. -/
def Forwarding.Stage.keyOn? (connection : Nat) : Forwarding.Stage → Option Nat
  | .calling c key => if c = connection then some key else none
  | _ => none

namespace Redirect.Hub
variable {h h' h'' : Hub} {s : Forwarding.Stage} {stages rest : List Forwarding.Stage}

theorem Forgets.trans (hf : Forgets stages h h') (hf' : Forgets rest h' h'') :
    Forgets (stages ++ rest) h h'' where
  length := hf'.length.trans hf.length
  each j c'' hc'' := by
    obtain ⟨c', hc', hclosed', hpending'⟩ := hf'.each j c'' hc''
    obtain ⟨c, hc, hclosed, hpending⟩ := hf.each j c' hc'
    refine ⟨c, hc, hclosed'.trans hclosed, fun p hp => ?_⟩
    obtain ⟨hp, hnot'⟩ := hpending' p hp
    obtain ⟨hp, hnot⟩ := hpending p hp
    exact ⟨hp, fun hmem => (List.mem_append.mp hmem).elim hnot hnot'⟩

/-- What the hub loses with calls is what they hold on it. -/
structure Loses (stages : List Forwarding.Stage) (h h' : Hub) : Prop where
  /-- Nothing changes but who waits for the dials and which calls the connections have. -/
  frame : h' = { h with dials := h'.dials, connections := h'.connections, parties := h'.parties }
  dials : h'.dials.map Dial.bare = h.dials.map Dial.bare
  empty : ∀ seat ∈ stages.filterMap Forwarding.Stage.seat?, h'.seat? seat = none
  seats : ∀ seat ∉ stages.filterMap Forwarding.Stage.seat?, h'.seat? seat = h.seat? seat
  parties : h'.parties = h.parties.filter fun p => p.1 ∉ stages.filterMap Forwarding.Stage.key?
  forgets : Forgets stages h h'
  /-- Nothing changes about a connection but which calls it has. -/
  steady : ∀ (j : Nat) (c' : Connection), h'.connections[j]? = some c' →
    ∃ c, h.connections[j]? = some c ∧
      c' = { c with callers := c'.callers, pending := c'.pending }
  /-- Where no two calls hold the same id, it is as it was without these calls. -/
  calls : ∀ (j : Nat) (c : Connection), h.connections[j]? = some c → c.Unmixed →
    h'.connections[j]? = some (c.without (stages.filterMap (Forwarding.Stage.keyOn? j)))

theorem Loses.managers (hl : Loses stages h h') : h'.managers = h.managers := by rw [hl.frame]

theorem Loses.of_nothing (hseats : stages.filterMap Forwarding.Stage.seat? = [])
    (hkeys : ∀ connection key, .calling connection key ∉ stages) : Loses stages h h where
  frame := rfl
  dials := rfl
  empty seat hs := by
    rw [hseats] at hs
    cases hs
  seats _ _ := rfl
  parties := by
    refine (List.filter_eq_self.mpr fun p _ => ?_).symm
    rw [decide_eq_true_iff]
    intro hmem
    obtain ⟨s, hs, hkey⟩ := List.mem_filterMap.mp hmem
    cases s <;> cases hkey
    exact hkeys _ _ hs
  forgets := .of_connections rfl hkeys
  steady _ c' hc' := ⟨c', hc', rfl⟩
  calls j c hc _ := by
    have hnone : stages.filterMap (Forwarding.Stage.keyOn? j) = [] := by
      refine List.filterMap_eq_nil_iff.mpr fun s hs => ?_
      cases s with
      | calling => exact absurd hs (hkeys _ _)
      | _ => rfl
    rw [hnone, Connection.without_nil, hc]

theorem Loses.trans (hl : Loses stages h h') (hl' : Loses rest h' h'') :
    Loses (stages ++ rest) h h'' where
  frame := hl'.frame.trans <| congrArg (fun h : Hub =>
    { h with dials := h''.dials, connections := h''.connections, parties := h''.parties }) hl.frame
  dials := hl'.dials.trans hl.dials
  empty seat hs := by
    rw [List.filterMap_append] at hs
    by_cases hmem : seat ∈ rest.filterMap Forwarding.Stage.seat?
    · exact hl'.empty seat hmem
    · rw [hl'.seats seat hmem]
      exact hl.empty seat ((List.mem_append.mp hs).resolve_right hmem)
  seats seat hs := by
    rw [List.filterMap_append, List.mem_append, not_or] at hs
    rw [hl'.seats seat hs.2, hl.seats seat hs.1]
  parties := by
    rw [hl'.parties, hl.parties, List.filter_filter]
    refine List.filter_congr fun p _ => ?_
    simp only [List.filterMap_append, List.mem_append, not_or, Bool.decide_and, Bool.and_comm]
  forgets := hl.forgets.trans hl'.forgets
  steady j c'' hc'' := by
    obtain ⟨c', hc', heq'⟩ := hl'.steady j c'' hc''
    obtain ⟨c, hc, heq⟩ := hl.steady j c' hc'
    exact ⟨c, hc, heq'.trans <| congrArg (fun c : Connection =>
      { c with callers := c''.callers, pending := c''.pending }) heq⟩
  calls j c hc hu := by
    rw [hl'.calls j _ (hl.calls j c hc hu) (hu.without _), Connection.without_without,
      List.filterMap_append]

/-- Somebody leaves the seat that he has. -/
theorem leave_loses {dial place : Nat} (hc : h.Carries (.dialing dial place :: rest)) :
    Loses [.dialing dial place] h (h.leave dial place) where
  frame := rfl
  dials := by
    refine List.ext_getElem? fun n => ?_
    simp only [leave, List.getElem?_map, List.getElem?_modify]
    cases h.dials[n]? with
    | none => rfl
    | some d => split <;> rfl
  empty seat hs := by
    cases List.mem_singleton.mp hs
    obtain ⟨party, hparty⟩ := hc.taken (dial, place) (List.mem_cons_self ..)
    obtain ⟨d, hd, hseat⟩ := Option.bind_eq_some_iff.mp hparty
    have hlt : place < d.places.length :=
      (List.getElem?_eq_some_iff.mp (Option.join_eq_some_iff.mp hseat)).1
    simp only [seat?, leave, List.getElem?_modify_eq, hd, Option.map_eq_map,
      Option.map_some, Option.bind_some, Dial.seat?, Dial.leave, List.getElem?_set_self hlt,
      Option.join_some]
  seats seat hs := by
    refine seat?_modify rfl seat fun d _ hdial => d.seat?_leave fun hplace => hs ?_
    exact List.mem_singleton.mpr (Prod.ext hdial hplace)
  parties := (List.filter_eq_self.mpr fun _ _ => decide_eq_true List.not_mem_nil).symm
  forgets := .of_connections rfl (by simp)
  steady _ c' hc' := ⟨c', hc', rfl⟩
  calls _ c hc _ := hc.trans (congrArg some c.without_nil.symm)

/-- A call that is on a connection is given up. -/
theorem abandonCall_loses {connection key : Nat}
    (hc : h.Carries (.calling connection key :: rest)) :
    Loses [.calling connection key] h (h.abandonCall connection key) where
  frame := rfl
  dials := rfl
  empty seat hs := by cases hs
  seats _ _ := rfl
  parties := List.filter_congr fun p _ => Bool.eq_iff_iff.mpr (by
    simp [Forwarding.Stage.key?])
  forgets := abandonCall_forgets fun c hmem => (hc.hosts c hmem).tied
  steady j c' hc' := by
    simp only [abandonCall, List.getElem?_modify] at hc'
    obtain ⟨c, hc, rfl⟩ := Option.map_eq_some_iff.mp hc'
    refine ⟨c, hc, ?_⟩
    split
    · exact c.abandon_frame key
    · rfl
  calls j c hj hu := by
    have htied := (hc.hosts c (List.mem_of_getElem? hj)).tied
    simp only [abandonCall, List.getElem?_modify, Forwarding.Stage.keyOn?, List.filterMap_cons,
      List.filterMap_nil, hj]
    split
    · exact congrArg some (hu.abandon_eq htied key)
    · exact congrArg some c.without_nil.symm

end Redirect.Hub

theorem Forwarding.drop_loses {f : Forwarding} {h : Hub} {rest : List Stage}
    (hc : h.Carries (f.stage :: rest)) : Hub.Loses [f.stage] h (f.drop h) := by
  unfold drop
  split <;> rename_i hs <;> rw [hs] at hc ⊢
  · exact .of_nothing rfl (by simp)
  · exact Hub.leave_loses hc
  · exact Hub.abandonCall_loses hc

namespace Relay
variable {r : Relay} {e : Entry} {rest : List Forwarding.Stage}

theorem dropService_loses (hc : r.hub.Carries (e.stage :: rest)) :
    Hub.Loses [e.stage] r.hub (r.dropService e.service).hub := by
  cases hs : e.service with
  | forwarding f =>
    have hstage : e.stage = f.stage := by rw [Entry.stage, hs]
    rw [hstage] at hc ⊢
    exact Forwarding.drop_loses hc
  | replying =>
    have hstage : e.stage = .wanting := by rw [Entry.stage, hs]
    rw [hstage]
    exact .of_nothing rfl (by simp)

/-- **Calls that are given up, one after the other, leave nothing behind.** They lose what they
hold on the hub and give their permits back, and nothing else happens. -/
theorem drops_loses {entries : List Entry} (hc : r.hub.Carries (entries.map Entry.stage ++ rest)) :
    Hub.Loses (entries.map Entry.stage) r.hub (entries.foldl drop r).hub ∧
      (entries.foldl drop r).hub.Carries rest ∧
      entries.foldl drop r =
        { r with hub := (entries.foldl drop r).hub, free := r.free + entries.length } := by
  induction entries generalizing r with
  | nil => exact ⟨.of_nothing rfl (by simp), hc, rfl⟩
  | cons e others ih =>
    have hloses : Hub.Loses [e.stage] r.hub (r.drop e).hub := dropService_loses hc
    have hcarries : (r.drop e).hub.Carries (others.map Entry.stage ++ rest) :=
      dropService_carries hc
    obtain ⟨hothers, hrest, heq⟩ := ih hcarries
    refine ⟨hloses.trans hothers, hrest, ?_⟩
    rw [List.foldl_cons, heq]
    have hfree : r.free + 1 + others.length = r.free + (others.length + 1) := by omega
    cases hs : e.service <;> simp only [drop, dropService, hs, List.length_cons, hfree]

end Relay
end Switchboard
