import Switchboard.Proofs.Connection.Closers
import Switchboard.Proofs.Hub.Sharing

/-! What becomes of the connections that dials have made.

A manager holds a connection only when a dial has ended with it, what was made by a dial that
failed is closed, and what a closed manager leaves behind is closed, or somebody has begun to
close it (`Accounted`). With `Tends`, which says what an act makes of the connections, this
holds in every course. -/
namespace Switchboard.Redirect

namespace Hub

variable {h h' : Hub} {i d c : Nat} {m : Manager}

/-- The connection is closed, or whoever closes it marks it with his next step; when there is
no step left, it is closed. -/
def Sinks (h : Hub) (c : Nat) : Prop :=
  ∃ k, h.connections[c]? = some k ∧
    (k.closed = true ∨ ∃ closer ∈ k.closers, ∃ k', k.closeStep closer.key = some k' ∧
      k'.closed = true) ∧
    (k.next = none → k.closed = true)

/-- The connection is closed, or somebody has begun to close it. -/
def Dooms (h : Hub) (c : Nat) : Prop := ∃ k, h.connections[c]? = some k ∧ k.Doomed

theorem Dooms.sinks (hd : h.Dooms c) (hh : ∀ k ∈ h.connections, k.Heeds) : h.Sinks c := by
  obtain ⟨k, hk, hdoom⟩ := hd
  have hheeds := hh k (List.mem_of_getElem? hk)
  refine ⟨k, hk, ?_, hheeds.closed_of_rest hdoom⟩
  cases hc : k.closed with
  | true => exact .inl rfl
  | false =>
    obtain ⟨closer, hmem⟩ := List.exists_mem_of_ne_nil _ (hdoom.resolve_left (by simp [hc]))
    exact .inr ⟨closer, hmem, hheeds.closes hc hmem⟩

/-! ### A closed manager -/

theorem ask_connections (h : Hub) (i party now : Nat) :
    (h.ask i party now).2.connections = h.connections := by
  have ha := ask_asks h i party now
  generalize h.ask i party now = r at ha
  cases ha with
  | begins _ _ hb => exact hb.connections
  | joins _ _ _ ha => exact ha.connections
  | gets => rfl
  | refused => rfl

/-- A connection is given only by the manager that holds it. -/
theorem ready_of_ask {h : Hub} {i party now c : Nat} (ha : (h.ask i party now).1 = .connected c) :
    h.state? i = some (.ready c) := by
  have hasks := ask_asks h i party now
  generalize h.ask i party now = r at ha hasks
  cases hasks with
  | gets hm hs =>
    cases ha
    exact (state?_eq hm).trans (congrArg some hs)
  | begins => cases ha
  | joins => cases ha
  | refused he => cases he.symm.trans ha

theorem ask_closed (hm : h.managers[i]? = some m) (hs : m.state = .closed) (party now : Nat) :
    h.ask i party now = (.refused, h) := by
  have hask : m.ask h.isClosed h.dials.length = (.refused, m) := by
    simp only [Manager.ask, hs]
  simp only [ask, hm, hask, setManager_self hm]

theorem closeManager_closed (hm : h.managers[i]? = some m) (hs : m.state = .closed) :
    h.closeManager i = h := by
  have hclose : m.close = (none, m) := by
    obtain ⟨_, _, _⟩ := m
    cases hs
    rfl
  simp only [closeManager, hm, hclose, setManager_self hm]

/-- Closing a manager begins to close the connection it holds. -/
theorem closeManager_dooms (hm : h.managers[i]? = some m) (hs : m.state = .ready c)
    (hc : c < h.connections.length) : (h.closeManager i).Dooms c := by
  have hclose : m.close = (some c, { m with state := .closed }) := by
    simp only [Manager.close, hs]
  refine ⟨h.connections[c].beginClosing h.nextKey true, ?_, .inr ?_⟩
  · simp only [closeManager, hm, hclose, note, setManager, List.getElem?_modify_eq,
      List.getElem?_eq_getElem hc]
    rfl
  · exact List.append_ne_nil_of_right_ne_nil _ (List.cons_ne_nil _ [])

/-- What a dial has made that ends after its manager was closed is aborted. -/
theorem endDial_closed {x : Dial} (hx : h.dials[d]? = some x)
    (hm : h.managers[x.manager]? = some m) (hs : m.state = .closed) (c : Nat) :
    (h.endDial d (.ok c)).connections = h.connections.modify c Connection.abort := by
  have hd : m.dialed (.ok c) = (.error .closed, false, m) := by
    simp only [Manager.dialed, hs]
  simp only [endDial, hx, hm, hd]
  rfl

/-! ### Outcomes -/

/-- A dial that is under way has no outcome. -/
theorem outcome?_flies (hf : h.Flies i d) : h.outcome? d = none := by
  rw [outcome?_eq, show h.fates[d]? = some (i, none) from hf]
  rfl

theorem outcome?_congr (hf : h'.fates = h.fates) : h'.outcome? d = h.outcome? d := by
  rw [outcome?_eq, hf, outcome?_eq]

theorem outcome?_ne {d' : Nat} {x : Nat × Option (Except ForwardError Nat)}
    (hf : h'.fates = h.fates.set d' x) (hne : d' ≠ d) : h'.outcome? d = h.outcome? d := by
  rw [outcome?_eq, hf, List.getElem?_set_ne hne, outcome?_eq]

theorem outcome?_self {o : Except ForwardError Nat} (hf : h.Flies i d)
    (hs : h'.fates = h.fates.set d (i, some o)) : h'.outcome? d = some o := by
  rw [outcome?_eq, hs, List.getElem?_set_self (List.getElem?_eq_some_iff.mp hf).1]
  rfl

/-- No end of a dial closes a manager. -/
theorem Ends.closed_back {j : Nat} {r : Except String Nat} (he : Ends h h' d j m r)
    (hm : h.managers[j]? = some m) (hs : h'.state? i = some .closed) :
    h.state? i = some .closed := by
  have hset {m' : Manager} (managers : h'.managers = h.managers.set j m')
      (hne : m'.state ≠ .closed) : h.state? i = some .closed := by
    by_cases hj : j = i
    · subst hj
      rw [state?_self hm managers] at hs
      exact absurd (Option.some.inj hs) hne
    · exact state?_ne hj managers ▸ hs
  cases he with
  | kept _ managers => exact hset managers (by simp)
  | failed _ managers => exact hset managers (by simp)
  | late _ managers => exact state?_congr managers i ▸ hs

end Hub

namespace Course
open Hub

variable {s s' : Course} {a : Act} {acts : List Act} {es : List Notice} {i d c : Nat} {m : Manager}

/-! ### What an act makes of the connections -/

/-- What an act makes of the connections: of one of them something that keeps whatever lasts,
or a new one that nobody closes. -/
inductive Tends (l l' : List Connection) : Prop
  | same (h : l' = l)
  | one (c : Nat) (f : Connection → Connection)
      (hf : ∀ P, Connection.Lasting P → ∀ k, l[c]? = some k → P k → P (f k))
      (h : l' = l.modify c f)
  | new (k : Connection) (hk : k.closers = []) (h : l' = l ++ [k])

theorem endDial_tends (h : Hub) (d : Nat) (result : Except String Nat) :
    Tends h.connections (h.endDial d result).connections := by
  unfold endDial
  split
  · exact .same rfl
  · split
    · exact .same rfl
    · dsimp only
      split
      · split <;> exact .same rfl
      · split
        · exact .one _ Connection.abort (fun P hP _ _ => hP.abort) rfl
        · exact .same rfl

theorem closeManager_tends (h : Hub) (i : Nat) :
    Tends h.connections (h.closeManager i).connections := by
  unfold closeManager
  split
  · exact .same rfl
  · dsimp only
    split
    · exact .same rfl
    · exact .one _ (fun k => k.beginClosing h.nextKey true)
        (fun P hP _ _ => hP.begin_ h.nextKey true) rfl

theorem tends_of_set {l : List Connection} {k k' : Connection} (hk : l[c]? = some k)
    (h : ∀ P, Connection.Lasting P → P k → P k') : Tends l (l.set c k') := by
  refine .one c (fun _ => k') (fun P hP k₀ hk₀ hp => ?_) (List.set_eq_modify ..)
  cases hk.symm.trans hk₀
  exact h P hP hp

theorem step_tends (h : s.step a = some s') : Tends s.hub.connections s'.hub.connections := by
  cases a with
  | want i party now =>
    cases h
    exact .same (ask_connections s.hub i party now)
  | learn w =>
    simp only [step] at h
    split at h
    · obtain ⟨_, _, rfl⟩ := Option.map_eq_some_iff.mp h
      exact .same rfl
    · cases h
  | leave w =>
    simp only [step] at h
    split at h <;> cases h
    exact .same rfl
  | retry d error =>
    cases h
    exact .same rfl
  | connect d capacity =>
    simp only [step] at h
    split at h <;> cases h
    exact .new _ rfl rfl
  | end_ d reason =>
    simp only [step] at h
    split at h <;> cases h
    exact endDial_tends ..
  | close i =>
    cases h
    exact closeManager_tends ..
  | beginCall c party method arguments =>
    cases h
    exact .one c (fun k => k.start s.hub.nextKey method arguments)
      (fun P hP _ _ => hP.start s.hub.nextKey method arguments) rfl
  | abandonCall c key =>
    cases h
    exact .one c _ (fun P hP _ _ => hP.move (m := .abandon key) rfl) rfl
  | settle c steps =>
    obtain ⟨k, hk, rfl⟩ := Option.map_eq_some_iff.mp h
    exact tends_of_set hk fun P hP hp => hP.settle steps hp
  | move c m =>
    obtain ⟨k', hk', rfl⟩ := Option.map_eq_some_iff.mp h
    obtain ⟨k, hk, hm⟩ := Option.bind_eq_some_iff.mp hk'
    exact tends_of_set hk fun P hP hp => hP.move hm hp

/-- What lasts, and holds of a connection, holds of it ever after. -/
theorem Tends.lasting {l l' : List Connection} {P : Connection → Prop} {k : Connection}
    (h : Tends l l') (hP : Connection.Lasting P) (hk : l[c]? = some k) (hp : P k) :
    ∃ k', l'[c]? = some k' ∧ P k' := by
  cases h with
  | same h => exact ⟨k, h ▸ hk, hp⟩
  | one j f hf h =>
    by_cases hj : j = c
    · subst hj
      refine ⟨f k, ?_, hf P hP k hk hp⟩
      rw [h, List.getElem?_modify_eq, hk]
      rfl
    · refine ⟨k, ?_, hp⟩
      rw [h, List.getElem?_modify_ne _ _ hj, hk]
  | new k' _ h =>
    refine ⟨k, ?_, hp⟩
    rw [h, List.getElem?_append_left (List.getElem?_eq_some_iff.mp hk).1, hk]

/-- What lasts, and holds of every connection that nobody closes, holds of all. -/
theorem Tends.all {l l' : List Connection} {P : Connection → Prop} (h : Tends l l')
    (hP : Connection.Lasting P) (hnew : ∀ k, k.closers = [] → P k) (hl : ∀ k ∈ l, P k) :
    ∀ k ∈ l', P k := by
  intro k' hk'
  cases h with
  | same h => exact hl k' (h ▸ hk')
  | one c f hf h =>
    obtain ⟨n, hn⟩ := List.mem_iff_getElem?.mp hk'
    rw [h, List.getElem?_modify] at hn
    obtain ⟨k, hk, rfl⟩ := Option.map_eq_some_iff.mp hn
    have hp := hl k (List.mem_of_getElem? hk)
    split
    · rename_i hc
      exact hf P hP k (hc ▸ hk) hp
    · exact hp
  | new k hk h =>
    rw [h] at hk'
    rcases List.mem_append.mp hk' with hk' | hk'
    · exact hl k' hk'
    · rw [List.mem_singleton.mp hk']
      exact hnew k hk

/-! ### What holds in every course -/

/-- What becomes of what the dials have made. -/
structure Accounted (s : Course) : Prop extends Sound s where
  /-- No two dials have made one connection. -/
  distinct : (s.made.map Prod.snd).Nodup
  /-- What a manager holds a dial has ended with. -/
  granted : ∀ i c, s.hub.state? i = some (.ready c) → ∃ d, s.hub.outcome? d = some (.ok c)
  /-- What a dial has made that has failed is closed. -/
  spent : ∀ d c e, s.hub.outcome? d = some (.error e) → (d, c) ∈ s.made → s.hub.isClosed c = true
  /-- What is open of a closed manager is on its way to be closed, or its dial is. -/
  doomed : ∀ i d c, s.hub.state? i = some .closed → s.Live i d c →
    s.hub.Flies i d ∨ s.hub.Dooms c
  heeds : ∀ k ∈ s.hub.connections, k.Heeds

theorem accounted_opened (longestFrame : Nat) (redirections : List Redirection) :
    Accounted (.opened longestFrame redirections) where
  toSound := sound_opened ..
  distinct := .nil
  granted i c hs := by
    simp only [opened, ofRedirections, Hub.state?, List.getElem?_map, Option.map_eq_some_iff] at hs
    obtain ⟨m, ⟨r, _, rfl⟩, hs⟩ := hs
    cases hs
  spent _ _ _ _ h := by cases h
  doomed _ _ _ _ h := by cases h.made
  heeds _ h := by cases h

theorem Orderly.made?_eq (h : Orderly s) (hc : (d, c) ∈ s.made) : s.made? d = some c := by
  cases hm : s.made? d with
  | none => exact absurd hc (made?_none hm c)
  | some c' => rw [h.made_eq hc (mem_of_made? hm)]

theorem Orderly.result_eq (h : Orderly s) (hc : (d, c) ∈ s.made) (reason : String) :
    s.result d reason = .ok c := by
  simp only [result, h.made?_eq hc]

/-- What a dial has made that ends as failed is closed then. -/
theorem Orderly.spent {reason : String} {e : ForwardError} (h : Orderly s) (hf : s.hub.Flies i d)
    (he : Ends s.hub s'.hub d i m (s.result d reason)) (ho : s'.hub.outcome? d = some (.error e))
    (hc : (d, c) ∈ s.made) : s'.hub.isClosed c = true := by
  rw [h.result_eq hc] at he
  cases he with
  | kept _ _ fates => cases (outcome?_self hf fates).symm.trans ho
  | late _ _ _ _ closed => exact closed c rfl

theorem Accounted.distinct_changes (hf : Accounted s) (hc : Changes s a s' es) :
    (s'.made.map Prod.snd).Nodup := by
  cases hc with
  | steady hs => exact hs.made ▸ hf.distinct
  | begins _ _ _ made => exact made ▸ hf.distinct
  | connects _ _ _ _ _ _ made =>
    have hnew : s.hub.connections.length ∉ s.made.map Prod.snd := fun hmem => by
      obtain ⟨⟨d, c⟩, hp, hc⟩ := List.mem_map.mp hmem
      exact absurd hc (Nat.ne_of_lt (hf.orderly.known d c hp).2)
    rw [made, List.map_append, List.map_singleton]
    exact hf.distinct.append (List.nodup_singleton _) (List.disjoint_singleton.mpr hnew)
  | ends _ _ _ made => exact made ▸ hf.distinct
  | closes _ _ made => exact made ▸ hf.distinct

theorem Accounted.granted_changes (hf : Accounted s) (hc : Changes s a s' es)
    (hs : s'.hub.state? i = some (.ready c)) : ∃ d, s'.hub.outcome? d = some (.ok c) := by
  have hold (hs : s.hub.state? i = some (.ready c)) : ∃ d, s'.hub.outcome? d = some (.ok c) := by
    obtain ⟨d, ho⟩ := hf.granted i c hs
    exact ⟨d, hc.outcome ho⟩
  have hset {j : Nat} {m m' : Manager} (hm : s.hub.managers[j]? = some m)
      (managers : s'.hub.managers = s.hub.managers.set j m') (hne : m'.state ≠ .ready c) :
      ∃ d, s'.hub.outcome? d = some (.ok c) := by
    by_cases hj : j = i
    · subst hj
      rw [state?_self hm managers] at hs
      exact absurd (Option.some.inj hs) hne
    · exact hold (state?_ne hj managers ▸ hs)
  cases hc with
  | steady hst => exact hold (state?_congr hst.managers i ▸ hs)
  | begins hm _ hb => exact hset hm hb.managers (by simp)
  | connects _ _ managers => exact hold (state?_congr managers i ▸ hs)
  | @ends d j reason m _ hflies hm he =>
    generalize s.result d reason = r at he
    cases he with
    | @kept _ c' _ managers fates =>
      by_cases hc : c' = c
      · exact ⟨d, hc ▸ outcome?_self hflies fates⟩
      · exact hset hm managers (by simpa using hc)
    | failed _ managers => exact hset hm managers (by simp)
    | late _ managers => exact hold (state?_congr managers i ▸ hs)
  | closes hm hcl => exact hset hm hcl.managers (by simp)

theorem Accounted.spent_changes {e : ForwardError} (hf : Accounted s)
    (hc : Changes s a s' es) (ho : s'.hub.outcome? d = some (.error e)) (hm : (d, c) ∈ s'.made) :
    s'.hub.isClosed c = true := by
  have hold (ho : s.hub.outcome? d = some (.error e)) (hm : (d, c) ∈ s.made)
      (hl : Lasts s.hub s'.hub) : s'.hub.isClosed c = true :=
    hl.closed c (hf.spent d c e ho hm)
  cases hc with
  | steady hs => exact hold (outcome?_congr hs.fates ▸ ho) (hs.made ▸ hm) hs.lasts
  | begins _ _ hb made =>
    refine hold ?_ (made ▸ hm) (.of_eq hb.connections)
    obtain ⟨x, hx, hxo⟩ := Option.bind_eq_some_iff.mp (outcome?_eq .. ▸ ho)
    rw [hb.fates] at hx
    rcases getElem?_concat_cases hx with hx | ⟨_, rfl⟩
    · rw [outcome?_eq, hx]
      exact hxo
    · cases hxo
  | @connects d' _ _ _ hd _ _ fates _ connections made =>
    have ho := outcome?_congr fates ▸ ho
    rw [made] at hm
    rcases List.mem_append.mp hm with hm | hm
    · rw [isClosed, connections, List.getElem?_append_left (hf.orderly.known d c hm).2]
      exact hf.spent d c e ho hm
    · cases List.mem_singleton.mp hm
      obtain ⟨i, hflies⟩ := underway_iff.mp hd
      cases (outcome?_flies hflies).symm.trans ho
  | @ends d' i reason m _ hflies hmgr he made =>
    have hm := made ▸ hm
    by_cases hd : d' = d
    · subst hd
      exact hf.orderly.spent hflies he ho hm
    · obtain ⟨o, hfates, hlasts, -⟩ := hf.orderly.ended hflies hmgr he
      exact hold (outcome?_ne hfates hd ▸ ho) hm hlasts
  | closes _ hcl made => exact hold (outcome?_congr hcl.fates ▸ ho) (made ▸ hm) hcl.lasts

theorem Tends.dooms {h h' : Hub} (ht : Tends h.connections h'.connections) (hd : h.Dooms c) :
    h'.Dooms c := by
  obtain ⟨k, hk, hp⟩ := hd
  exact ht.lasting Connection.lasting_doomed hk hp

theorem Accounted.doomed_changes (hf : Accounted s) (hstep : s.step a = some s')
    (hc : Changes s a s' es) (hs : s'.hub.state? i = some .closed) (hl : s'.Live i d c) :
    s'.hub.Flies i d ∨ s'.hub.Dooms c := by
  have hold (hs : s.hub.state? i = some .closed) (hl : s.Live i d c)
      (hflies : s.hub.Flies i d → s'.hub.Flies i d) : s'.hub.Flies i d ∨ s'.hub.Dooms c :=
    (hf.doomed i d c hs hl).imp hflies (step_tends hstep).dooms
  cases hc with
  | steady hst =>
    refine hold (state?_congr hst.managers i ▸ hs) ?_ (flies_congr hst.fates).mpr
    exact hl.back hst.made (fun o ho => ⟨o, hst.fates ▸ ho⟩) hst.lasts
  | @begins j party now m _ hm hlacks hb made =>
    have hj : j ≠ i := fun hj => by
      cases (state?_self hm hb.managers).symm.trans (hj ▸ hs)
    have hd := (hf.orderly.known d c (made ▸ hl.made)).1
    have heq : s'.hub.fates[d]? = s.hub.fates[d]? := by
      rw [hb.fates, List.getElem?_append_left hd]
    refine hold (state?_ne hj hb.managers ▸ hs) ?_ fun hflies => heq.trans hflies
    exact hl.back made (fun o ho => ⟨o, heq ▸ ho⟩) (.of_eq hb.connections)
  | @connects d' _ _ _ hd _ managers fates _ connections made =>
    obtain ⟨o, ho⟩ := hl.mine
    have hmade := hl.made
    rw [made] at hmade
    rcases List.mem_append.mp hmade with hmade | hmade
    · refine hold (state?_congr managers i ▸ hs) ⟨hmade, ⟨o, fates ▸ ho⟩, ?_⟩
        (flies_congr fates).mpr
      have hopen := hl.open_
      rwa [isClosed, connections, List.getElem?_append_left (hf.orderly.known d c hmade).2] at hopen
    · -- what was made just now was made by a dial that is under way
      cases List.mem_singleton.mp hmade
      obtain ⟨j, hflies⟩ := underway_iff.mp hd
      cases ((flies_congr fates).mpr hflies).symm.trans ho
      exact .inl ho
  | @ends d' j reason m _ hflies hm he made =>
    obtain ⟨o, hfates, hlasts, hother, hend⟩ := hf.orderly.ended hflies hm he
    have hne : d' ≠ d := fun hd => by
      subst hd
      obtain ⟨o', ho'⟩ := hl.mine
      rw [hfates, List.getElem?_set_self (List.getElem?_eq_some_iff.mp hflies).1] at ho'
      cases ho'
      cases hend with
      | kept _ hst => cases hst.symm.trans hs
      | failed _ hst => cases hst.symm.trans hs
      | late =>
        have hclosed := hf.orderly.spent hflies he (outcome?_self hflies hfates) (made ▸ hl.made)
        rw [hl.open_] at hclosed
        cases hclosed
    have heq : s'.hub.fates[d]? = s.hub.fates[d]? := by
      rw [hfates, List.getElem?_set_ne hne]
    exact hold (he.closed_back hm hs) (hl.back made (fun o ho => ⟨o, heq ▸ ho⟩) hlasts)
      fun hfl => heq.trans hfl
  | @closes j m _ hm hcl made =>
    have hlive := hl.back made (fun o ho => ⟨o, hcl.fates ▸ ho⟩) hcl.lasts
    have hback := (flies_congr (i := i) (d := d) hcl.fates).mpr
    by_cases hj : j = i
    · subst hj
      rcases hf.orderly.held j d c hlive with hst | hst | hst
      · cases hstep
        rw [state?_eq hm] at hst
        exact .inr (closeManager_dooms hm (Option.some.inj hst) (hf.orderly.known d c hlive.made).2)
      · exact .inl (hback (hf.orderly.dialing j d hst))
      · exact hold hst hlive hback
    · exact hold (state?_ne hj hcl.managers ▸ hs) hlive hback

theorem Accounted.step (hf : Accounted s) (hs : s.step a = some s') : Accounted s' := by
  obtain ⟨es, hl, hc⟩ := step_changes hf.orderly.owned hs
  exact {
    toSound := hf.toSound.step hs
    distinct := hf.distinct_changes hc
    granted := fun _ _ hr => hf.granted_changes hc hr
    spent := fun _ _ _ ho hm => hf.spent_changes hc ho hm
    doomed := fun _ _ _ hcl hl => hf.doomed_changes hs hc hcl hl
    heeds := (step_tends hs).all Connection.lasting_heeds
      (fun k hk _ closer hmem => by simp [hk] at hmem) hf.heeds }

theorem Accounted.run (hf : Accounted s) (hr : s.run acts = some s') : Accounted s' :=
  run_preserves (fun _ _ _ _ hs ht => Accounted.step hs ht) hr hf

end Course
end Switchboard.Redirect
