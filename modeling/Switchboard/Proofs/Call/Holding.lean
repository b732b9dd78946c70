import Switchboard.Call.Forwarding
import Switchboard.Proofs.Connection.Leaving
import Switchboard.Proofs.Hub.Changes

/-! What forwarded calls hold on a hub.

A call on its way through a redirection holds a seat among those who wait for a dial, or a key on a
connection. A hub *carries* calls when what they hold is theirs: no two of them have one key or one
seat, a key that has been given out is not given out again, and a free seat is empty
(`Hub.Carries`). Everything that may happen on the hub preserves this, whether a call goes on
(`Forwarding.go_carried`), is given up (`Forwarding.drop_carries`), or the dials and connections
take their steps (`Hub.Carries.act`). -/
namespace Switchboard
open Redirect

/-! ### Seats -/

namespace Redirect.Dial
variable {d : Dial} {place party : Nat}

/-- Who has the seat. -/
def seat? (d : Dial) (place : Nat) : Option Nat := d.places[place]?.join

/-- The free seats are empty, and each of them comes once. -/
structure Tidy (d : Dial) : Prop where
  nodup : d.free.Nodup
  empty : ∀ p ∈ d.free, d.places[p]? = some none

/-- Whoever begins to wait gets a seat that nobody has, and takes none from anybody. -/
structure Seats (d : Dial) (party place : Nat) (d' : Dial) : Prop where
  tidy : d'.Tidy
  was : d.seat? place = none
  now : d'.seat? place = some party
  others : ∀ p, p ≠ place → d'.seat? p = d.seat? p

theorem Tidy.wait (h : d.Tidy) (party : Nat) : d.Seats party (d.wait party).1 (d.wait party).2 := by
  unfold Dial.wait
  split
  · rename_i place free hfree
    obtain ⟨hnew, hnodup⟩ := List.nodup_cons.mp (hfree ▸ h.nodup)
    have hempty := h.empty place (hfree ▸ List.mem_cons_self ..)
    have hlt : place < d.places.length := (List.getElem?_eq_some_iff.mp hempty).1
    refine ⟨⟨hnodup, fun p hp => ?_⟩, ?_, ?_, fun p hp => ?_⟩
    · have hne : place ≠ p := fun he => hnew (he ▸ hp)
      rw [List.getElem?_set_ne hne]
      exact h.empty p (hfree ▸ List.mem_cons_of_mem _ hp)
    · rw [seat?, hempty]
      rfl
    · simp only [seat?, List.getElem?_set_self hlt, Option.join_some]
    · simp only [seat?, List.getElem?_set_ne hp.symm]
  · rename_i hfree
    refine ⟨⟨hfree ▸ .nil, fun p hp => ?_⟩, ?_, ?_, fun p hp => ?_⟩
    · rw [hfree] at hp
      cases hp
    · rw [seat?, List.getElem?_eq_none (Nat.le_refl _)]
      rfl
    · simp only [seat?, List.getElem?_concat_length, Option.join_some]
    · simp only [seat?]
      rcases Nat.lt_or_ge p d.places.length with hlt | hle
      · rw [List.getElem?_append_left hlt]
      · have hlt : d.places.length < p := Nat.lt_of_le_of_ne hle hp.symm
        rw [List.getElem?_eq_none hle, List.getElem?_eq_none (by rw [List.length_append]; exact hlt)]

theorem seat?_leave (d : Dial) {p : Nat} (hp : p ≠ place) : (d.leave place).seat? p = d.seat? p := by
  simp only [seat?, leave, List.getElem?_set_ne hp.symm]

/-- Whoever has a seat may leave it. -/
theorem Tidy.leave (h : d.Tidy) (hseat : d.seat? place = some party) : (d.leave place).Tidy := by
  have hplace : d.places[place]? = some (some party) := Option.join_eq_some_iff.mp hseat
  have hlt : place < d.places.length := (List.getElem?_eq_some_iff.mp hplace).1
  refine ⟨List.nodup_cons.mpr ⟨fun hmem => ?_, h.nodup⟩, fun p hp => ?_⟩
  · cases hplace.symm.trans (h.empty place hmem)
  · by_cases he : place = p
    · subst he
      exact List.getElem?_set_self hlt
    · rcases List.mem_cons.mp hp with hp | hp
      · exact absurd hp.symm he
      · exact (List.getElem?_set_ne he).trans (h.empty p hp)

end Redirect.Dial

/-! ### Calls that a hub carries -/

namespace Forwarding.Stage

/-- The key that a call has on a connection. -/
def key? : Stage → Option Nat
  | .calling _ key => some key
  | _ => none

/-- The seat that a call has among those who wait for a dial. -/
def seat? : Stage → Option (Nat × Nat)
  | .dialing dial place => some (dial, place)
  | _ => none

end Forwarding.Stage

namespace Redirect.Hub

variable {h h' : Hub} {s : Forwarding.Stage} {stages rest : List Forwarding.Stage}

/-- Who has a seat. -/
def seat? (h : Hub) (seat : Nat × Nat) : Option Nat := h.dials[seat.1]?.bind fun d => d.seat? seat.2

/-- The hub carries the calls that stand there. -/
structure Carries (h : Hub) (stages : List Forwarding.Stage) : Prop where
  hosts : ∀ c ∈ h.connections, Connection.Hosts h.nextKey c
  keys : (stages.filterMap Forwarding.Stage.key?).Nodup
  known : ∀ key ∈ stages.filterMap Forwarding.Stage.key?, key < h.nextKey
  seats : (stages.filterMap Forwarding.Stage.seat?).Nodup
  taken : ∀ seat ∈ stages.filterMap Forwarding.Stage.seat?, ∃ party, h.seat? seat = some party
  tidy : ∀ d ∈ h.dials, d.Tidy

theorem Carries.perm {stages' : List Forwarding.Stage} (hc : h.Carries stages)
    (hp : stages.Perm stages') : h.Carries stages' where
  hosts := hc.hosts
  keys := ((hp.filterMap _).nodup_iff).mp hc.keys
  known key hkey := hc.known key ((hp.filterMap _).mem_iff.mpr hkey)
  seats := ((hp.filterMap _).nodup_iff).mp hc.seats
  taken seat hseat := hc.taken seat ((hp.filterMap _).mem_iff.mpr hseat)
  tidy := hc.tidy

theorem Carries.sublist {stages' : List Forwarding.Stage} (hc : h.Carries stages)
    (hs : stages'.Sublist stages) : h.Carries stages' where
  hosts := hc.hosts
  keys := hc.keys.sublist (hs.filterMap _)
  known key hkey := hc.known key ((hs.filterMap _).subset hkey)
  seats := hc.seats.sublist (hs.filterMap _)
  taken seat hseat := hc.taken seat ((hs.filterMap _).subset hseat)
  tidy := hc.tidy

theorem Carries.tail (hc : h.Carries (s :: rest)) : h.Carries rest :=
  hc.sublist (List.sublist_cons_self s rest)

/-- A call that holds nothing yet. -/
theorem Carries.wanting (hc : h.Carries rest) : h.Carries (.wanting :: rest) :=
  ⟨hc.hosts, hc.keys, hc.known, hc.seats, hc.taken, hc.tidy⟩

/-- Where the connections are as good as before and the seats are as they were. -/
theorem Carries.frame (hc : h.Carries stages) (hnext : h.nextKey ≤ h'.nextKey)
    (hhosts : ∀ c ∈ h'.connections, Connection.Hosts h'.nextKey c)
    (hseat : ∀ seat ∈ stages.filterMap Forwarding.Stage.seat?, h'.seat? seat = h.seat? seat)
    (htidy : ∀ d ∈ h'.dials, d.Tidy) : h'.Carries stages where
  hosts := hhosts
  keys := hc.keys
  known key hkey := Nat.lt_of_lt_of_le (hc.known key hkey) hnext
  seats := hc.seats
  taken seat hs := hseat seat hs ▸ hc.taken seat hs
  tidy := htidy

theorem seat?_congr (hd : h'.dials = h.dials) (seat : Nat × Nat) : h'.seat? seat = h.seat? seat := by
  rw [seat?, hd, seat?]

theorem Carries.of_dials (hc : h.Carries stages) (hd : h'.dials = h.dials)
    (hnext : h.nextKey ≤ h'.nextKey)
    (hhosts : ∀ c ∈ h'.connections, Connection.Hosts h'.nextKey c) : h'.Carries stages :=
  hc.frame hnext hhosts (fun seat _ => seat?_congr hd seat) (hd ▸ hc.tidy)

theorem Carries.congr (hc : h.Carries stages) (hconnections : h'.connections = h.connections)
    (hd : h'.dials = h.dials) (hnext : h'.nextKey = h.nextKey) : h'.Carries stages :=
  hc.of_dials hd (Nat.le_of_eq hnext.symm) (by rw [hconnections, hnext]; exact hc.hosts)

/-! ### Wanting a connection -/

/-- A dial changes, and who has the seat stays. -/
theorem seat?_modify {f : Dial → Dial} {dial : Nat} (hdials : h'.dials = h.dials.modify dial f)
    (seat : Nat × Nat)
    (hsame : ∀ d, h.dials[dial]? = some d → seat.1 = dial → (f d).seat? seat.2 = d.seat? seat.2) :
    h'.seat? seat = h.seat? seat := by
  rw [seat?, hdials, List.getElem?_modify, seat?]
  cases hd : h.dials[seat.1]? with
  | none => rfl
  | some d =>
    by_cases hs : dial = seat.1
    · simp only [if_pos hs]
      exact hsame d (hs ▸ hd) hs.symm
    · simp only [if_neg hs]
      rfl

theorem Carries.wait {d : Dial} {dial : Nat} (hc : h.Carries rest) (hd : h.dials[dial]? = some d)
    (party : Nat) : ∃ place, (h.wait dial party).1 = .waits dial place ∧
      (h.wait dial party).2.Carries (.dialing dial place :: rest) := by
  have hseats := (hc.tidy d (List.mem_of_getElem? hd)).wait party
  have hwait : h.wait dial party =
      (.waits dial (d.wait party).1, { h with dials := h.dials.set dial (d.wait party).2 }) := by
    simp only [Hub.wait, hd]
  rw [hwait]
  generalize d.wait party = waited at hseats
  obtain ⟨place, d'⟩ := waited
  -- the seat is nobody's, and so not that of a call
  have hnew : (dial, place) ∉ rest.filterMap Forwarding.Stage.seat? := by
    intro hmem
    obtain ⟨party', hparty⟩ := hc.taken _ hmem
    rw [seat?, hd] at hparty
    cases hseats.was.symm.trans hparty
  have hsame : ∀ seat ∈ rest.filterMap Forwarding.Stage.seat?,
      seat? { h with dials := h.dials.set dial d' } seat = h.seat? seat := by
    intro seat hseat
    refine seat?_modify (List.set_eq_modify ..) seat fun x hx hdial => ?_
    cases hd.symm.trans hx
    refine hseats.others _ fun hplace => hnew ?_
    rw [show (dial, place) = seat from Prod.ext hdial.symm hplace.symm]
    exact hseat
  have hrest : Carries { h with dials := h.dials.set dial d' } rest := by
    refine hc.frame (Nat.le_refl _) hc.hosts hsame fun x hx => ?_
    rcases List.mem_or_eq_of_mem_set hx with hx | rfl
    · exact hc.tidy x hx
    · exact hseats.tidy
  refine ⟨place, rfl, hrest.hosts, hrest.keys, hrest.known, List.nodup_cons.mpr ⟨hnew, hrest.seats⟩,
    fun seat hseat => ?_, hrest.tidy⟩
  rcases List.mem_cons.mp hseat with rfl | hseat
  · refine ⟨party, ?_⟩
    rw [seat?, List.getElem?_set_self (List.getElem?_eq_some_iff.mp hd).1]
    exact hseats.now
  · exact hrest.taken seat hseat

/-- What somebody gets that wants a connection is carried with the rest. -/
inductive Grants (rest : List Forwarding.Stage) : Access × Hub → Prop
  | connected {c : Nat} {h : Hub} (hc : h.Carries rest) : Grants rest (.connected c, h)
  | refused {h : Hub} (hc : h.Carries rest) : Grants rest (.refused, h)
  | waits {dial place : Nat} {h : Hub} (hc : h.Carries (.dialing dial place :: rest)) :
      Grants rest (.waits dial place, h)

theorem Carries.grants_wait (hc : h.Carries rest) (dial party : Nat) :
    Grants rest (h.wait dial party) := by
  cases hd : h.dials[dial]? with
  | none =>
    simp only [Hub.wait, hd]
    exact .refused hc
  | some d =>
    obtain ⟨place, haccess, hcarries⟩ := hc.wait hd party
    rw [show h.wait dial party = (.waits dial place, (h.wait dial party).2) from
      Prod.ext haccess rfl]
    exact .waits hcarries

theorem Carries.ask (hc : h.Carries rest) (manager party now : Nat) :
    Grants rest (h.ask manager party now) := by
  unfold Hub.ask
  split
  · exact .refused hc
  · rename_i m _
    have hset (m' : Manager) : (h.setManager manager m').Carries rest := hc.congr rfl rfl rfl
    generalize m.ask h.isClosed h.dials.length = answer
    obtain ⟨grant, m'⟩ := answer
    dsimp only
    cases grant with
    | connected c => exact .connected (hset m')
    | refused => exact .refused (hset m')
    | joins d => exact (hset m').grants_wait d party
    | dials d =>
      refine Carries.grants_wait ?_ d party
      refine (hset m').frame (Nat.le_refl _) hc.hosts (fun seat hseat => ?_) fun x hx => ?_
      · -- who has a seat has it at a dial that is there
        obtain ⟨party', hparty⟩ := hc.taken seat hseat
        obtain ⟨x, hx, -⟩ := Option.bind_eq_some_iff.mp hparty
        have hlt := (List.getElem?_eq_some_iff.mp hx).1
        simp only [seat?, note, setManager, List.getElem?_append_left hlt]
      · rcases List.mem_append.mp hx with hx | hx
        · exact hc.tidy x hx
        · cases List.mem_singleton.mp hx
          exact ⟨.nil, fun p hp => by cases hp⟩

/-- Whoever has a seat leaves it. -/
theorem Carries.leave {dial place : Nat} (hc : h.Carries (.dialing dial place :: rest)) :
    (h.leave dial place).Carries rest := by
  obtain ⟨party, hparty⟩ := hc.taken (dial, place) (List.mem_cons_self ..)
  obtain ⟨d, hd, hseat⟩ := Option.bind_eq_some_iff.mp hparty
  refine hc.tail.frame (Nat.le_refl _) hc.hosts (fun seat hmem => ?_) fun x hx => ?_
  · refine seat?_modify rfl seat fun x _ hdial => x.seat?_leave fun hplace => ?_
    refine (List.nodup_cons.mp hc.seats).1 ?_
    rw [show (dial, place) = seat from Prod.ext hdial.symm hplace.symm]
    exact hmem
  · obtain ⟨n, hn⟩ := List.mem_iff_getElem?.mp hx
    simp only [Hub.leave, List.getElem?_modify] at hn
    obtain ⟨y, hy, rfl⟩ := Option.map_eq_some_iff.mp hn
    have htidy := hc.tidy y (List.mem_of_getElem? hy)
    split
    · rename_i he
      cases (he ▸ hd).symm.trans hy
      exact htidy.leave hseat
    · exact htidy

/-! ### Calls over connections -/

/-- What holds of all connections, and of the one that changes then, holds of all again. -/
theorem forall_mem_modify {α : Type} {P : α → Prop} {l : List α} {i : Nat} {f : α → α}
    (h : ∀ a ∈ l, P a) (hf : ∀ a, P a → P (f a)) : ∀ a ∈ l.modify i f, P a := by
  intro a ha
  obtain ⟨n, hn⟩ := List.mem_iff_getElem?.mp ha
  rw [List.getElem?_modify] at hn
  obtain ⟨b, hb, rfl⟩ := Option.map_eq_some_iff.mp hn
  have hp := h b (List.mem_of_getElem? hb)
  split
  · exact hf b hp
  · exact hp

theorem Carries.beginCall (hc : h.Carries rest) (connection party : Nat) (method : String)
    (arguments : List Json.Raw) :
    (h.beginCall connection party method arguments).2.Carries
      (.calling connection h.nextKey :: rest) := by
  have hrest : (h.beginCall connection party method arguments).2.Carries rest := by
    refine hc.of_dials rfl (Nat.le_succ _) fun k hk => ?_
    obtain ⟨n, hn⟩ := List.mem_iff_getElem?.mp hk
    simp only [Hub.beginCall, note, List.getElem?_modify] at hn
    obtain ⟨k', hk', rfl⟩ := Option.map_eq_some_iff.mp hn
    have hhosts := hc.hosts k' (List.mem_of_getElem? hk')
    split
    · exact hhosts.start method arguments
    · exact hhosts.mono (Nat.le_succ _)
  refine ⟨hrest.hosts, List.nodup_cons.mpr ⟨fun hmem => ?_, hc.keys⟩, fun key hkey => ?_, hrest.seats,
    hrest.taken, hrest.tidy⟩
  · exact Nat.lt_irrefl _ (hc.known _ hmem)
  · rcases List.mem_cons.mp hkey with rfl | hkey
    · exact Nat.lt_succ_self _
    · exact hrest.known key hkey

theorem Carries.abandonCall (hc : h.Carries stages) (connection key : Nat) :
    (h.abandonCall connection key).Carries stages :=
  hc.of_dials rfl (Nat.le_refl _) (forall_mem_modify hc.hosts fun _ hk => hk.abandon key)

end Redirect.Hub

/-! ### A call that goes on, or is given up -/

namespace Forwarding
variable {h : Hub} {f : Forwarding} {rest : List Stage} {party now : Nat}

/-- A call of which something was done is carried with the rest while it is under way, and when it
is over the rest is carried. -/
inductive Carried (rest : List Stage) : Progress × Hub → Prop
  | pending {f : Forwarding} {h : Hub} (hc : h.Carries (f.stage :: rest)) : Carried rest (.pending f, h)
  | ended {result : Forwarded} {h : Hub} (hc : h.Carries rest) : Carried rest (.ended result, h)

theorem drop_carries (hc : h.Carries (f.stage :: rest)) : (f.drop h).Carries rest := by
  unfold drop
  split
  · exact hc.tail
  · rename_i dial place hs
    exact Hub.Carries.leave (hs ▸ hc)
  · exact hc.tail.abandonCall _ _

theorem collect_carried (hc : h.Carries (f.stage :: rest)) : Carried rest (f.collect h) := by
  unfold collect
  split
  · split
    · exact .ended (hc.tail.abandonCall _ _)
    · exact .pending hc
  · exact .pending hc

theorem send_carried (hc : h.Carries rest) (connection : Nat) :
    Carried rest (f.send h party connection) :=
  @collect_carried _ { f with stage := .calling connection h.nextKey } rest
    (hc.beginCall connection party f.method f.arguments)

theorem go_carried (hc : h.Carries (f.stage :: rest)) : Carried rest (f.go h party now) := by
  unfold go
  split
  · have hgrants := hc.tail.ask f.manager party now
    generalize h.ask f.manager party now = granted at hgrants
    cases hgrants with
    | connected hc => exact send_carried hc _
    | refused hc => exact .ended hc
    | waits hc => exact .pending hc
  · split
    · exact .pending hc
    · exact send_carried hc.tail _
    · exact .ended hc.tail
  · exact collect_carried hc

theorem invoke_carried (hc : h.Carries (f.stage :: rest)) (cancelled : Bool) :
    Carried rest (f.invoke h cancelled party now) := by
  unfold invoke
  split
  · exact .ended (drop_carries hc)
  · have hgo : Carried rest (f.go h party now) := go_carried hc
    generalize f.go h party now = went at hgo
    cases hgo with
    | pending hc => exact .pending hc
    | ended hc =>
      split
      · rename_i heq
        cases heq
        exact .ended (hc.congr rfl rfl rfl)
      · exact .ended hc

end Forwarding

/-! ### What the dials and the connections do -/

namespace Redirect

/-- It is no call that makes the move, nor does a call begin or is given up with it. -/
def Move.isOutside : Move → Bool
  | .enter .. | .abandon _ => false
  | _ => true

/-- It is no party of a call that does it. -/
def Act.isOutside : Act → Bool
  | .retry .. | .connect .. | .end_ .. | .close _ | .settle .. => true
  | .move _ m => m.isOutside
  | _ => false

theorem Move.isOutside.goes_on {m : Move} (hm : m.isOutside = true) : ¬m.Begins := by
  cases m with
  | enter => cases hm
  | _ => exact id

namespace Hub
variable {h : Hub} {stages : List Forwarding.Stage}

/-- A dial that changes in nothing that concerns seats. -/
theorem Carries.modify_dial (hc : h.Carries stages) {f : Dial → Dial} (dial : Nat)
    (hf : ∀ d, (f d).places = d.places ∧ (f d).free = d.free) :
    Carries { h with dials := h.dials.modify dial f } stages := by
  refine hc.frame (Nat.le_refl _) hc.hosts (fun seat _ => ?_) ?_
  · exact seat?_modify rfl seat fun d _ _ => by rw [Dial.seat?, (hf d).1, Dial.seat?]
  · exact forall_mem_modify hc.tidy fun d hd =>
      ⟨(hf d).2 ▸ hd.nodup, fun p hp => (hf d).1 ▸ hd.empty p ((hf d).2 ▸ hp)⟩

theorem Carries.modify_connection (hc : h.Carries stages) {f : Connection → Connection}
    (connection : Nat) (hf : ∀ k, Connection.Hosts h.nextKey k → Connection.Hosts h.nextKey (f k)) :
    Carries { h with connections := h.connections.modify connection f } stages :=
  hc.of_dials rfl (Nat.le_refl _) (forall_mem_modify hc.hosts hf)

theorem Carries.endDial (hc : h.Carries stages) (dial : Nat) (result : Except String Nat) :
    (h.endDial dial result).Carries stages := by
  unfold Hub.endDial
  split
  · exact hc
  · split
    · exact hc
    · rename_i m _
      generalize m.dialed result = dialed
      obtain ⟨outcome, counts, m'⟩ := dialed
      have hended : Carries { h with dials := h.dials.modify dial fun d =>
          { d with outcome? := some outcome } } stages :=
        hc.modify_dial dial fun _ => ⟨rfl, rfl⟩
      dsimp only
      split
      · split <;> exact hended.congr rfl rfl rfl
      · split
        · exact (hended.modify_connection _ fun _ hk => hk.abort).congr rfl rfl rfl
        · exact hended.congr rfl rfl rfl

theorem Carries.closeManager (hc : h.Carries stages) (i : Nat) :
    (h.closeManager i).Carries stages := by
  unfold Hub.closeManager
  split
  · exact hc
  · rename_i m _
    generalize m.close = closed
    obtain ⟨connection?, m'⟩ := closed
    dsimp only
    split
    · exact hc.congr rfl rfl rfl
    · refine hc.of_dials rfl (Nat.le_succ _) (forall_mem_modify (fun k hk => ?_) fun k hk => ?_)
      · exact (hc.hosts k hk).mono (Nat.le_succ _)
      · exact hk.beginClosing _ _

theorem Carries.set_connection {c c' : Connection} {i : Nat} (hc : h.Carries stages)
    (hi : h.connections[i]? = some c)
    (hhosts : Connection.Hosts h.nextKey c → Connection.Hosts h.nextKey c') :
    (h.setConnection i c').Carries stages := by
  refine hc.of_dials rfl (Nat.le_refl _) fun k hk => ?_
  rcases List.mem_or_eq_of_mem_set hk with hk | rfl
  · exact hc.hosts k hk
  · exact hhosts (hc.hosts c (List.mem_of_getElem? hi))

/-- **What no call does leaves the calls what they hold.** -/
theorem Carries.act {s s' : Course} {a : Act} (hc : s.hub.Carries stages)
    (ha : a.isOutside = true) (h : s.step a = some s') : s'.hub.Carries stages := by
  cases a with
  | retry dial error =>
    cases h
    exact hc.modify_dial dial fun _ => ⟨rfl, rfl⟩
  | connect dial capacity =>
    simp only [Course.step] at h
    split at h <;> cases h
    refine hc.of_dials rfl (Nat.le_refl _) fun k hk => ?_
    rcases List.mem_append.mp hk with hk | hk
    · exact hc.hosts k hk
    · cases List.mem_singleton.mp hk
      exact Connection.hosts_opened ..
  | end_ dial reason =>
    simp only [Course.step] at h
    split at h <;> cases h
    exact hc.endDial dial _
  | close manager =>
    cases h
    exact hc.closeManager manager
  | settle connection steps =>
    obtain ⟨c, hi, rfl⟩ := Option.map_eq_some_iff.mp h
    exact (hc.set_connection hi fun hk => hk.settle steps).congr rfl rfl rfl
  | move connection m =>
    obtain ⟨c', hc', rfl⟩ := Option.map_eq_some_iff.mp h
    obtain ⟨c, hi, hm⟩ := Option.bind_eq_some_iff.mp hc'
    exact hc.set_connection hi fun hk => hk.step hm (Move.isOutside.goes_on ha)
  | _ => cases ha

end Hub
end Redirect
end Switchboard
