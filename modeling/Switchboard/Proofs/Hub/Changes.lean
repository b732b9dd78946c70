import Switchboard.Proofs.Connection.Closing
import Switchboard.Proofs.Connection.Order
import Switchboard.Proofs.Hub.Course

/-! What one act can do to the managers, the dials and the connections of a hub.

Of a dial only its manager and its outcome count here (`Hub.fates`), and of a connection
whether it is closed, which it stays once it is (`Hub.Lasts`). `Course.step_changes` says
for every act which of them it changes. -/
namespace Switchboard.Redirect
open Json

namespace Connection

variable {c c' : Connection}

/-! ### Closed connections stay closed -/

theorem next_closed {w : List Warning} (h : c.next = some (c', w)) (hc : c.closed = true) :
    c'.closed = true :=
  next_cases h (fun _ _ ha => (advance_closed ha).trans hc) fun _ hm => step_closed hm hc

theorem settle_closed (steps : Nat) (hc : c.closed = true) :
    (c.settle steps).1.closed = true := by
  induction steps generalizing c with
  | zero => exact hc
  | succ steps ih =>
    cases hn : c.next with
    | none =>
      simp only [settle, hn]
      exact hc
    | some p =>
      simp only [settle, hn]
      exact ih (next_closed hn hc)

theorem callSteps_closed (key steps : Nat) (hc : c.closed = true) :
    (c.callSteps key steps).closed = true := by
  induction steps generalizing c with
  | zero => exact hc
  | succ steps ih =>
    cases hn : c.callStep key with
    | none =>
      simp only [callSteps, hn]
      exact hc
    | some d =>
      simp only [callSteps, hn]
      exact ih (step_closed (m := .call key) hn hc)

end Connection

namespace Hub

variable {h h' : Hub} {i d : Nat}

/-! ### Dials -/

/-- Of every dial its manager and its outcome. -/
def fates (h : Hub) : List (Nat × Option (Except ForwardError Nat)) :=
  h.dials.map fun d => (d.manager, d.outcome?)

/-- The dial is one of the manager's, and under way. -/
def Flies (h : Hub) (i d : Nat) : Prop := h.fates[d]? = some (i, none)

theorem flies_congr (hf : h'.fates = h.fates) : h'.Flies i d ↔ h.Flies i d := by
  rw [Flies, hf, Flies]

theorem underway_iff : h.Underway d ↔ ∃ i, h.Flies i d := by
  simp only [Underway, Flies, fates, List.getElem?_map, Option.map_eq_some_iff, Prod.mk.injEq]
  constructor
  · rintro ⟨x, hx, ho⟩
    exact ⟨x.manager, x, hx, rfl, ho⟩
  · rintro ⟨_, x, hx, -, ho⟩
    exact ⟨x, hx, ho⟩

theorem outcome?_eq (h : Hub) (d : Nat) : h.outcome? d = h.fates[d]?.bind Prod.snd := by
  simp only [outcome?, fates, List.getElem?_map, Option.bind_map]
  rfl

theorem length_fates (h : Hub) : h.fates.length = h.dials.length := List.length_map ..

/-- A change to a dial that leaves its manager and its outcome alone. -/
theorem fates_modify {f : Dial → Dial}
    (hf : ∀ d, (f d).manager = d.manager ∧ (f d).outcome? = d.outcome?) :
    ((h.dials.modify d f).map fun d => (d.manager, d.outcome?)) = h.fates := by
  refine List.ext_getElem? fun n => ?_
  simp only [fates, List.getElem?_map, List.getElem?_modify]
  cases h.dials[n]? with
  | none => rfl
  | some x =>
    by_cases hn : d = n
    · simp [hn, (hf x).1, (hf x).2]
    · simp [hn]

/-! ### Managers -/

def state? (h : Hub) (i : Nat) : Option Manager.State := h.managers[i]?.map Manager.state

theorem state?_eq {m : Manager} (hm : h.managers[i]? = some m) : h.state? i = some m.state := by
  rw [state?, hm, Option.map_some]

theorem state?_congr (hm : h'.managers = h.managers) (j : Nat) : h'.state? j = h.state? j := by
  rw [state?, hm, state?]

theorem state?_self {m m' : Manager} (hm : h.managers[i]? = some m)
    (hs : h'.managers = h.managers.set i m') : h'.state? i = some m'.state := by
  rw [state?, hs, List.getElem?_set_self (List.getElem?_eq_some_iff.mp hm).1, Option.map_some]

theorem state?_ne {m' : Manager} {j : Nat} (hj : i ≠ j)
    (hs : h'.managers = h.managers.set i m') : h'.state? j = h.state? j := by
  rw [state?, hs, List.getElem?_set_ne hj, state?]

/-! ### Connections -/

/-- The hubs have the same connections, and what was closed is closed. -/
structure Lasts (h h' : Hub) : Prop where
  length : h'.connections.length = h.connections.length
  closed : ∀ c, h.isClosed c = true → h'.isClosed c = true

theorem Lasts.of_eq (hc : h'.connections = h.connections) : Lasts h h' where
  length := by rw [hc]
  closed c := by simp only [isClosed, hc, imp_self]

theorem lasts_of_modify {f : Connection → Connection}
    (hf : ∀ c, h.connections[i]? = some c → c.closed = true → (f c).closed = true)
    (hc : h'.connections = h.connections.modify i f) : Lasts h h' where
  length := by rw [hc, List.length_modify]
  closed c hclosed := by
    simp only [isClosed, hc, List.getElem?_modify] at hclosed ⊢
    cases hk : h.connections[c]? with
    | none => rfl
    | some k =>
      simp only [hk] at hclosed
      by_cases hi : i = c
      · subst hi
        simpa using hf k hk hclosed
      · simpa [hi] using hclosed

theorem lasts_of_set {c c' : Connection} (hi : h.connections[i]? = some c)
    (hc : c.closed = true → c'.closed = true) (hs : h'.connections = h.connections.set i c') :
    Lasts h h' := by
  refine lasts_of_modify (i := i) (f := fun _ => c') (fun k hk hclosed => ?_) ?_
  · cases hi.symm.trans hk
    exact hc hclosed
  · rw [hs, List.set_eq_modify]

/-! ### Wanting a connection -/

/-- Nothing has changed that matters here. -/
structure Agrees (h h' : Hub) : Prop where
  managers : h'.managers = h.managers
  fates : h'.fates = h.fates
  connections : h'.connections = h.connections

theorem wait_agrees (h : Hub) (dial party : Nat) : Agrees h (h.wait dial party).2 := by
  unfold wait
  split
  · exact ⟨rfl, rfl, rfl⟩
  · rename_i x hx
    refine ⟨rfl, ?_, rfl⟩
    have hw : (x.wait party).2.manager = x.manager ∧ (x.wait party).2.outcome? = x.outcome? := by
      unfold Dial.wait
      split <;> exact ⟨rfl, rfl⟩
    refine List.ext_getElem? fun n => ?_
    simp only [fates, List.getElem?_map, List.getElem?_set]
    by_cases hn : dial = n
    · subst hn
      rw [hx]
      simp [hw.1, hw.2, (List.getElem?_eq_some_iff.mp hx).1]
    · rw [if_neg hn]

theorem wait_some {h : Hub} {dial : Nat} {x : Dial} (hx : h.dials[dial]? = some x) (party : Nat) :
    ∃ place, (h.wait dial party).1 = .waits dial place := by
  simp only [wait, hx]
  exact ⟨_, rfl⟩

theorem setManager_self {m : Manager} (hm : h.managers[i]? = some m) : h.setManager i m = h := by
  obtain ⟨hi, rfl⟩ := List.getElem?_eq_some_iff.mp hm
  rw [setManager, List.set_getElem_self]

/-- The manager has no connection that it could give. -/
def Lacks (h : Hub) (m : Manager) : Prop :=
  m.state = .idle ∨ ∃ c, m.state = .ready c ∧ h.isClosed c = true

/-- A dial begins for a manager. -/
structure Begins (h h' : Hub) (i : Nat) (m : Manager) : Prop where
  managers : h'.managers =
    h.managers.set i { m with state := .dialing h.dials.length, dials := m.dials + 1 }
  fates : h'.fates = h.fates ++ [(i, none)]
  connections : h'.connections = h.connections

/-- What becomes of somebody who wants the connection of a manager. -/
inductive Asks (h : Hub) (i : Nat) : Access × Hub → Prop
  | begins {m : Manager} {place : Nat} {h' : Hub} (hm : h.managers[i]? = some m) (hs : h.Lacks m)
      (hb : Begins h h' i m) : Asks h i (.waits h.dials.length place, h')
  | joins {m : Manager} {dial place : Nat} {h' : Hub} (hm : h.managers[i]? = some m)
      (hs : m.state = .dialing dial) (hd : dial < h.dials.length) (ha : Agrees h h') :
      Asks h i (.waits dial place, h')
  | gets {m : Manager} {c : Nat} (hm : h.managers[i]? = some m) (hs : m.state = .ready c)
      (hc : h.isClosed c = false) : Asks h i (.connected c, h)
  | refused {access : Access} (ha : access = .refused) : Asks h i (access, h)

theorem ask_begins {m : Manager} (hm : h.managers[i]? = some m) (hs : h.Lacks m)
    (party now : Nat) :
    ∃ place h', h.ask i party now = (.waits h.dials.length place, h') ∧ Begins h h' i m := by
  have hask : m.ask h.isClosed h.dials.length = (.dials h.dials.length,
      { m with state := .dialing h.dials.length, dials := m.dials + 1 }) := by
    rcases hs with hs | ⟨c, hs, hc⟩
    · simp only [Manager.ask, hs]
    · simp only [Manager.ask, hs, hc, if_true]
  simp only [ask, hm, hask]
  generalize hx : Dial.mk i _ _ _ _ = x
  generalize hg : Hub.note _ _ = g
  have hxg : g.dials[h.dials.length]? = some x := by
    rw [← hg]
    exact List.getElem?_concat_length ..
  obtain ⟨place, hp⟩ := wait_some hxg party
  have ha := wait_agrees g h.dials.length party
  refine ⟨place, (g.wait h.dials.length party).2, Prod.ext hp rfl, ?_, ?_, ?_⟩
  · rw [ha.managers, ← hg]
    rfl
  · rw [ha.fates, ← hg, ← hx]
    exact List.map_append
  · rw [ha.connections, ← hg]
    rfl

/-- **Whoever wants a connection begins a dial, joins the one that is under way, gets the
connection there is, or is refused.** -/
theorem ask_asks (h : Hub) (i party now : Nat) : Asks h i (h.ask i party now) := by
  cases hm : h.managers[i]? with
  | none =>
    simp only [ask, hm]
    exact .refused rfl
  | some m =>
    cases hs : m.state with
    | idle =>
      obtain ⟨place, h', he, hb⟩ := ask_begins hm (.inl hs) party now
      rw [he]
      exact .begins hm (.inl hs) hb
    | dialing dial =>
      have hask : m.ask h.isClosed h.dials.length = (.joins dial, m) := by
        simp only [Manager.ask, hs]
      simp only [ask, hm, hask, setManager_self hm]
      cases hx : h.dials[dial]? with
      | none =>
        simp only [wait, hx]
        exact .refused rfl
      | some x =>
        obtain ⟨place, hp⟩ := wait_some hx party
        have hw : h.wait dial party = (.waits dial place, (h.wait dial party).2) :=
          Prod.ext hp rfl
        rw [hw]
        exact .joins hm hs (List.getElem?_eq_some_iff.mp hx).1 (wait_agrees ..)
    | ready c =>
      cases hc : h.isClosed c with
      | true =>
        have hl : h.Lacks m := .inr ⟨c, hs, hc⟩
        obtain ⟨place, h', he, hb⟩ := ask_begins hm hl party now
        rw [he]
        exact .begins hm hl hb
      | false =>
        have hask : m.ask h.isClosed h.dials.length = (.connected c, m) := by
          simp only [Manager.ask, hs, hc, if_false, Bool.false_eq_true]
        simp only [ask, hm, hask, setManager_self hm]
        exact .gets hm hs hc
    | closed =>
      have hask : m.ask h.isClosed h.dials.length = (.refused, m) := by
        simp only [Manager.ask, hs]
      simp only [ask, hm, hask, setManager_self hm]
      exact .refused rfl

/-! ### The end of a dial -/

theorem fates_end {x : Dial} {outcome : Except ForwardError Nat} (hx : h.dials[d]? = some x) :
    ((h.dials.modify d fun x => { x with outcome? := some outcome }).map
      fun x => (x.manager, x.outcome?)) = h.fates.set d (x.manager, some outcome) := by
  obtain ⟨hd, rfl⟩ := List.getElem?_eq_some_iff.mp hx
  refine List.ext_getElem? fun n => ?_
  simp only [fates, List.getElem?_map, List.getElem?_modify, List.getElem?_set, List.length_map]
  by_cases hn : d = n
  · subst hn
    simp [hd]
  · simp [hn]

/-- What a hub does with a dial that has ended with a result. -/
inductive Ends (h h' : Hub) (d i : Nat) (m : Manager) : Except String Nat → Prop
  | kept {dial c : Nat} (hs : m.state = .dialing dial)
      (managers : h'.managers = h.managers.set i { m with state := .ready c })
      (fates : h'.fates = h.fates.set d (i, some (.ok c)))
      (connections : h'.connections = h.connections) : Ends h h' d i m (.ok c)
  | failed {dial : Nat} {reason : String} {e : ForwardError} (hs : m.state = .dialing dial)
      (managers : h'.managers = h.managers.set i { m with state := .idle })
      (fates : h'.fates = h.fates.set d (i, some (.error e)))
      (connections : h'.connections = h.connections) : Ends h h' d i m (.error reason)
  | late {result : Except String Nat} (hs : ∀ dial, m.state ≠ .dialing dial)
      (managers : h'.managers = h.managers)
      (fates : h'.fates = h.fates.set d (i, some (.error .closed)))
      (lasts : Lasts h h') (closed : ∀ c, result = .ok c → h'.isClosed c = true) :
      Ends h h' d i m result

theorem isClosed_abort (h : Hub) (c : Nat) {h' : Hub}
    (hc : h'.connections = h.connections.modify c Connection.abort) : h'.isClosed c = true := by
  simp only [isClosed, hc, List.getElem?_modify_eq]
  cases h.connections[c]? <;> rfl

theorem endDial_ends {x : Dial} {m : Manager} (hx : h.dials[d]? = some x)
    (hm : h.managers[x.manager]? = some m) (result : Except String Nat) :
    Ends h (h.endDial d result) d x.manager m result := by
  simp only [endDial, hx, hm]
  by_cases hs : ∃ dial, m.state = .dialing dial
  · obtain ⟨dial, hs⟩ := hs
    cases result with
    | ok c =>
      simp only [Manager.dialed, hs, if_true, Except.isOk]
      exact .kept hs rfl (fates_end hx) rfl
    | error reason =>
      simp only [Manager.dialed, hs, if_true, Except.isOk]
      exact .failed hs rfl (fates_end hx) rfl
  · have hs : ∀ dial, m.state ≠ .dialing dial := fun dial he => hs ⟨dial, he⟩
    have hd : m.dialed result = (.error .closed, false, m) := by
      unfold Manager.dialed
      split
      · exact absurd ‹_› (hs _)
      · rfl
    simp only [hd, setManager_self hm, Bool.false_eq_true, if_false]
    cases result with
    | ok c =>
      refine .late hs rfl (fates_end hx) ?_ fun c' hc => ?_
      · exact lasts_of_modify (fun _ _ _ => rfl) rfl
      · cases hc
        exact isClosed_abort _ c rfl
    | error reason =>
      exact .late hs rfl (fates_end hx) (.of_eq rfl) fun c hc => by cases hc

/-! ### Closing -/

theorem closeManager_none (hm : h.managers[i]? = none) : h.closeManager i = h := by
  simp only [closeManager, hm]

/-- A manager is closed. -/
structure Closes (h h' : Hub) (i : Nat) (m : Manager) : Prop where
  managers : h'.managers = h.managers.set i { m with state := .closed }
  fates : h'.fates = h.fates
  lasts : Lasts h h'

theorem closeManager_closes {m : Manager} (hm : h.managers[i]? = some m) :
    Closes h (h.closeManager i) i m := by
  have hclose : m.close = (m.close.1, { m with state := .closed }) := rfl
  simp only [closeManager, hm]
  rw [hclose]
  dsimp only
  cases m.close.1 with
  | none => exact ⟨rfl, rfl, .of_eq rfl⟩
  | some c =>
    refine ⟨rfl, rfl, ?_⟩
    exact lasts_of_modify (f := fun k => k.beginClosing h.nextKey true) (fun _ _ hc => hc) rfl

end Hub
/-- Every dial that is under way is that of a manager. -/
def Hub.Owned (h : Hub) : Prop := ∀ i d, h.Flies i d → i < h.managers.length

/-! ### One act -/

namespace Course
open Hub

variable {s s' : Course} {a : Act}

/-- Managers and dials are left alone. -/
structure Steady (s s' : Course) : Prop where
  managers : s'.hub.managers = s.hub.managers
  fates : s'.hub.fates = s.hub.fates
  made : s'.made = s.made
  lasts : Lasts s.hub s'.hub

theorem Steady.of_agrees (h : Agrees s.hub s'.hub) (hm : s'.made = s.made) : Steady s s' :=
  ⟨h.managers, h.fates, hm, .of_eq h.connections⟩

/-- What can be seen without a change: that somebody waits for the dial of a manager, or
learns how a dial has ended. -/
def Sees (s : Course) : Notice → Prop
  | .joined _ dial =>
    ∃ (i : Nat) (m : Manager), s.hub.managers[i]? = some m ∧ m.state = .dialing dial
  | .learned party dial outcome =>
    (∃ w ∈ s.waiting, w.party = party ∧ w.dial = dial) ∧ s.hub.outcome? dial = some outcome
  | _ => False

/-- What an act changes, and what is seen of it. -/
inductive Changes (s : Course) : Act → Course → List Notice → Prop
  | steady {a : Act} {s' : Course} {es : List Notice} (h : Steady s s') (he : ∀ e ∈ es, s.Sees e) :
      Changes s a s' es
  | begins {i party now : Nat} {m : Manager} {s' : Course} (hm : s.hub.managers[i]? = some m)
      (hs : s.hub.Lacks m) (hb : Begins s.hub s'.hub i m) (made : s'.made = s.made) :
      Changes s (.want i party now) s'
        [.began i s.hub.dials.length, .joined party s.hub.dials.length]
  | connects {d : Nat} {capacity : Capacity} {k : Connection} {s' : Course} (hd : s.hub.Underway d)
      (hnone : s.made? d = none) (managers : s'.hub.managers = s.hub.managers)
      (fates : s'.hub.fates = s.hub.fates) (hk : k.closed = false)
      (connections : s'.hub.connections = s.hub.connections ++ [k])
      (made : s'.made = s.made ++ [(d, s.hub.connections.length)]) :
      Changes s (.connect d capacity) s' []
  | ends {d i : Nat} {reason : String} {m : Manager} {s' : Course}
      (hf : s.hub.Flies i d) (hm : s.hub.managers[i]? = some m)
      (he : Ends s.hub s'.hub d i m (s.result d reason)) (made : s'.made = s.made) :
      Changes s (.end_ d reason) s' [.ended d]
  | closes {i : Nat} {m : Manager} {s' : Course} (hm : s.hub.managers[i]? = some m)
      (hc : Closes s.hub s'.hub i m) (made : s'.made = s.made) : Changes s (.close i) s' []

theorem Steady.silent (h : Steady s s') (hl : s'.log = s.log) :
    ∃ es, s'.log = s.log ++ es ∧ Changes s a s' es :=
  ⟨[], by rw [hl, List.append_nil], .steady h fun _ he => by cases he⟩

theorem want_changes {i party now : Nat} (h : s.step (.want i party now) = some s') :
    ∃ es, s'.log = s.log ++ es ∧ Changes s (.want i party now) s' es := by
  have ha := ask_asks s.hub i party now
  simp only [step] at h
  generalize s.hub.ask i party now = r at h ha
  obtain ⟨access, hub⟩ := r
  cases h
  refine ⟨s.wantNotices i party access, rfl, ?_⟩
  cases ha with
  | begins hm hs hb =>
    simp only [wantNotices, if_true]
    exact .begins hm hs hb rfl
  | joins hm hs hd ha =>
    simp only [wantNotices, if_neg (Nat.ne_of_lt hd)]
    exact .steady (.of_agrees ha rfl) fun e he => List.mem_singleton.mp he ▸ ⟨_, _, hm, hs⟩
  | gets => exact .steady (.of_agrees ⟨rfl, rfl, rfl⟩ rfl) fun _ he => by cases he
  | refused ha =>
    subst ha
    exact .steady (.of_agrees ⟨rfl, rfl, rfl⟩ rfl) fun _ he => by cases he

theorem end_changes {d : Nat} {reason : String} (ho : s.hub.Owned)
    (h : s.step (.end_ d reason) = some s') :
    ∃ es, s'.log = s.log ++ es ∧ Changes s (.end_ d reason) s' es := by
  simp only [step] at h
  split at h <;> cases h
  rename_i hu
  obtain ⟨x, hx, hopen⟩ := hu
  have hf : s.hub.Flies x.manager d := by
    simp only [Flies, Hub.fates, List.getElem?_map, hx, hopen, Option.map_some]
  have hi := ho _ _ hf
  exact ⟨_, rfl, .ends hf (List.getElem?_eq_getElem hi)
    (endDial_ends hx (List.getElem?_eq_getElem hi) _) rfl⟩

/-- **What every act changes.** -/
theorem step_changes (ho : s.hub.Owned) (h : s.step a = some s') :
    ∃ es, s'.log = s.log ++ es ∧ Changes s a s' es := by
  cases a with
  | want i party now => exact want_changes h
  | end_ d reason => exact end_changes ho h
  | learn w =>
    simp only [step] at h
    split at h
    · rename_i hw
      obtain ⟨outcome, ho, rfl⟩ := Option.map_eq_some_iff.mp h
      refine ⟨_, rfl, .steady (.of_agrees ⟨rfl, rfl, rfl⟩ rfl) fun e he => ?_⟩
      exact List.mem_singleton.mp he ▸ ⟨⟨w, hw, rfl, rfl⟩, ho⟩
    · cases h
  | leave w =>
    simp only [step] at h
    split at h <;> cases h
    exact Steady.silent ⟨rfl, fates_modify fun _ => ⟨rfl, rfl⟩, rfl, .of_eq rfl⟩ rfl
  | retry d error =>
    cases h
    exact Steady.silent ⟨rfl, fates_modify fun _ => ⟨rfl, rfl⟩, rfl, .of_eq rfl⟩ rfl
  | connect d capacity =>
    simp only [step] at h
    split at h <;> cases h
    rename_i hd
    exact ⟨[], (List.append_nil _).symm, .connects hd.1 hd.2 rfl rfl rfl rfl rfl⟩
  | close i =>
    cases h
    cases hm : s.hub.managers[i]? with
    | none =>
      rw [closeManager_none hm]
      exact Steady.silent ⟨rfl, rfl, rfl, .of_eq rfl⟩ rfl
    | some m =>
      exact ⟨[], (List.append_nil _).symm, .closes hm (closeManager_closes hm) rfl⟩
  | beginCall c party method arguments =>
    cases h
    refine Steady.silent ⟨rfl, rfl, rfl, ?_⟩ rfl
    exact lasts_of_modify (f := fun k => k.start s.hub.nextKey method arguments)
      (fun k _ hk => Connection.callSteps_closed _ _ hk) rfl
  | abandonCall c key =>
    cases h
    refine Steady.silent ⟨rfl, rfl, rfl, ?_⟩ rfl
    exact lasts_of_modify (fun k _ hk => Connection.step_closed (m := .abandon key) rfl hk) rfl
  | settle c steps =>
    obtain ⟨k, hk, rfl⟩ := Option.map_eq_some_iff.mp h
    refine Steady.silent ⟨rfl, rfl, rfl, ?_⟩ rfl
    exact lasts_of_set hk (fun hc => Connection.settle_closed steps hc) rfl
  | move c m =>
    obtain ⟨k', hk', rfl⟩ := Option.map_eq_some_iff.mp h
    obtain ⟨k, hk, hm⟩ := Option.bind_eq_some_iff.mp hk'
    refine Steady.silent ⟨rfl, rfl, rfl, ?_⟩ rfl
    exact lasts_of_set hk (fun hc => Connection.step_closed hm hc) rfl

end Course
end Switchboard.Redirect
