import Switchboard.Proofs.Hub.Dialing

/-! What the parties see of the dials.

Everybody who waits for a dial learns the outcome it had when it ended (`Told`). A dial
that failed is forgotten: its manager stands idle, and whoever comes next has it dial
again (`resting_of_changes`). -/
namespace Switchboard.Redirect

/-- How the reported state of a manager may change. -/
inductive Leads : String → String → Prop
  | stays {a : String} : Leads a a
  | dials : Leads "idle" "dialing"
  | connects : Leads "dialing" "ready"
  | fails : Leads "dialing" "idle"
  | loses : Leads "ready" "idle"
  | redials : Leads "ready" "dialing"
  | closes {a : String} : Leads a "closed"

namespace Course
open Hub

variable {s s' : Course} {a : Act} {es : List Notice} {i d c : Nat} {m : Manager}

/-! ### Read off the log -/

/-- The dials that have begun for a manager, in order. -/
def begunFor (i : Nat) (log : List Notice) : List Nat :=
  log.filterMap fun
    | .began j d => if j = i then some d else none
    | _ => none

theorem begunFor_append (i : Nat) (a b : List Notice) :
    begunFor i (a ++ b) = begunFor i a ++ begunFor i b := List.filterMap_append

theorem begunFor_seen (i : Nat) (he : ∀ e ∈ es, s.Sees e) : begunFor i es = [] := by
  refine List.filterMap_eq_nil_iff.mpr fun e hmem => ?_
  have := he e hmem
  cases e with
  | began => exact this.elim
  | _ => rfl

theorem begunFor_began (i j d party : Nat) :
    begunFor j [.began i d, .joined party d] = if i = j then [d] else [] := by
  by_cases hij : i = j <;> simp [begunFor, hij]

/-! ### The number of dials -/

/-- The manager counts every dial that begins for it. -/
theorem Changes.counts {j : Nat} {m' : Manager} (hc : Changes s a s' es)
    (hm' : s'.hub.managers[j]? = some m') :
    ∃ m, s.hub.managers[j]? = some m ∧ m'.dials = m.dials + (begunFor j es).length := by
  have hkeep {i : Nat} {m₀ m₁ : Manager} (hm : s.hub.managers[i]? = some m₀)
      (hs : s'.hub.managers = s.hub.managers.set i m₁) (hd : m₁.dials = m₀.dials) :
      ∃ m, s.hub.managers[j]? = some m ∧ m'.dials = m.dials := by
    rw [hs] at hm'
    rcases getElem?_set_cases hm' with ⟨rfl, rfl⟩ | ⟨_, hm'⟩
    · exact ⟨m₀, hm, hd⟩
    · exact ⟨m', hm', rfl⟩
  cases hc with
  | steady hs he =>
    rw [begunFor_seen j he]
    exact ⟨m', hs.managers ▸ hm', rfl⟩
  | @begins i party now m _ hm hs hb =>
    rw [hb.managers] at hm'
    rw [begunFor_began]
    rcases getElem?_set_cases hm' with ⟨rfl, rfl⟩ | ⟨hij, hm'⟩
    · exact ⟨m, hm, by rw [if_pos rfl]; rfl⟩
    · exact ⟨m', hm', by rw [if_neg hij]; rfl⟩
  | connects _ _ hm => exact ⟨m', hm ▸ hm', rfl⟩
  | @ends d i reason m _ _ hm he =>
    generalize s.result d reason = r at he
    cases he with
    | kept _ managers => exact hkeep hm managers rfl
    | failed _ managers => exact hkeep hm managers rfl
    | late _ managers => exact ⟨m', managers ▸ hm', rfl⟩
  | closes hm hc => exact hkeep hm hc.managers rfl

/-! ### Outcomes -/

/-- An outcome stays. -/
theorem Changes.outcome {o : Except ForwardError Nat} (hc : Changes s a s' es)
    (ho : s.hub.outcome? d = some o) : s'.hub.outcome? d = some o := by
  rw [outcome?_eq] at ho ⊢
  have hends {d₁ i : Nat} {o₁ : Except ForwardError Nat} (hf : s.hub.Flies i d₁)
      (hs : s'.hub.fates = s.hub.fates.set d₁ (i, some o₁)) :
      s'.hub.fates[d]?.bind Prod.snd = some o := by
    have hne : d₁ ≠ d := fun hd => by
      subst hd
      rw [show s.hub.fates[d₁]? = some (i, none) from hf] at ho
      cases ho
    rw [hs, List.getElem?_set_ne hne, ho]
  cases hc with
  | steady hs =>
    rw [hs.fates]
    exact ho
  | begins _ _ hb =>
    obtain ⟨x, hx, _⟩ := Option.bind_eq_some_iff.mp ho
    rw [hb.fates, List.getElem?_append_left (List.getElem?_eq_some_iff.mp hx).1]
    exact ho
  | connects _ _ _ hf =>
    rw [hf]
    exact ho
  | @ends d₁ i reason m _ hf _ he =>
    generalize s.result d₁ reason = r at he
    cases he with
    | kept _ _ fates => exact hends hf fates
    | failed _ _ fates => exact hends hf fates
    | late _ _ fates => exact hends hf fates
  | closes _ hc =>
    rw [hc.fates]
    exact ho

/-- Nobody waits who has not joined a dial. -/
theorem step_waiting (h : s.step a = some s') {w : Waiter} (hw : w ∈ s'.waiting) :
    w ∈ s.waiting ∨ .joined w.party w.dial ∈ s'.log := by
  cases a with
  | want i party now =>
    simp only [step] at h
    generalize s.hub.ask i party now = r at h
    obtain ⟨access, hub⟩ := r
    cases h
    cases access with
    | waits dial place =>
      rcases List.mem_cons.mp hw with rfl | hw
      · refine .inr (List.mem_append_right _ ?_)
        simp only [wantNotices]
        split <;> simp
      · exact .inl hw
    | _ => exact .inl hw
  | learn w' =>
    simp only [step] at h
    split at h
    · obtain ⟨_, _, rfl⟩ := Option.map_eq_some_iff.mp h
      exact .inl (List.mem_of_mem_erase hw)
    · cases h
  | leave w' =>
    simp only [step] at h
    split at h <;> cases h
    exact .inl (List.mem_of_mem_erase hw)
  | connect dial capacity =>
    simp only [step] at h
    split at h <;> cases h
    exact .inl hw
  | end_ dial reason =>
    simp only [step] at h
    split at h <;> cases h
    exact .inl hw
  | settle c steps =>
    obtain ⟨_, _, rfl⟩ := Option.map_eq_some_iff.mp h
    exact .inl hw
  | move c m =>
    obtain ⟨_, _, rfl⟩ := Option.map_eq_some_iff.mp h
    exact .inl hw
  | _ =>
    cases h
    exact .inl hw

/-- What the log says of dials and of those who wait is so. -/
structure Told (s : Course) : Prop where
  counts : ∀ (i : Nat) (m : Manager), s.hub.managers[i]? = some m →
    m.dials = (begunFor i s.log).length
  waiting : ∀ w ∈ s.waiting, .joined w.party w.dial ∈ s.log
  learned : ∀ party d o, .learned party d o ∈ s.log →
    .joined party d ∈ s.log ∧ s.hub.outcome? d = some o

theorem told_opened (longestFrame : Nat) (redirections : List Redirection) :
    Told (.opened longestFrame redirections) where
  counts i m hm := by
    simp only [opened, ofRedirections, List.getElem?_map, Option.map_eq_some_iff] at hm
    obtain ⟨r, _, rfl⟩ := hm
    rfl
  waiting _ h := by cases h
  learned _ _ _ h := by cases h

theorem Told.step (h : Told s) (hs : s.step a = some s') (hl : s'.log = s.log ++ es)
    (hc : Changes s a s' es) : Told s' where
  counts i m' hm' := by
    obtain ⟨m, hm, hd⟩ := hc.counts hm'
    rw [hd, h.counts i m hm, hl, begunFor_append, List.length_append]
  waiting w hw := by
    rcases step_waiting hs hw with hw | hw
    · rw [hl]
      exact List.mem_append_left _ (h.waiting w hw)
    · exact hw
  learned party d o hmem := by
    rw [hl] at hmem ⊢
    rcases List.mem_append.mp hmem with hmem | hmem
    · obtain ⟨hj, ho⟩ := h.learned party d o hmem
      exact ⟨List.mem_append_left _ hj, hc.outcome ho⟩
    · have hout (ho : s.hub.outcome? d = some o) := hc.outcome ho
      cases hc with
      | steady hs he =>
        obtain ⟨⟨w, hw, rfl, rfl⟩, ho⟩ := he _ hmem
        exact ⟨List.mem_append_left _ (h.waiting w hw), hout ho⟩
      | begins => simp at hmem
      | connects => simp at hmem
      | ends => simp at hmem
      | closes => simp at hmem

/-! ### Reports -/

/-- While its state stays, a manager is reported to have lost its connection at most. -/
theorem leads_of_lasts {before after : Nat → Bool}
    (hl : ∀ c, m.state = .ready c → before c = true → after c = true) :
    Leads (m.report before) (m.report after) := by
  cases hs : m.state with
  | ready c =>
    simp only [Manager.report, hs]
    cases hb : before c with
    | true =>
      rw [hl c hs hb]
      exact .stays
    | false =>
      cases after c with
      | true => exact .loses
      | false => exact .stays
  | _ =>
    simp only [Manager.report, hs]
    exact .stays

/-- The state that is reported of a manager changes in few ways. -/
theorem Orderly.leads (h : Orderly s) (hc : Changes s a s' es) (hm : s.hub.managers[i]? = some m) :
    ∃ m', s'.hub.managers[i]? = some m' ∧
      Leads (m.report s.hub.isClosed) (m'.report s'.hub.isClosed) := by
  have hstays (hs : s'.hub.managers[i]? = s.hub.managers[i]?) (hl : Lasts s.hub s'.hub) :
      ∃ m', s'.hub.managers[i]? = some m' ∧
        Leads (m.report s.hub.isClosed) (m'.report s'.hub.isClosed) :=
    ⟨m, hs.trans hm, leads_of_lasts fun c _ => hl.closed c⟩
  have hset {j : Nat} {m₀ m₁ : Manager} (hm₀ : s.hub.managers[j]? = some m₀)
      (hs : s'.hub.managers = s.hub.managers.set j m₁) (hl : Lasts s.hub s'.hub)
      (hlead : Leads (m₀.report s.hub.isClosed) (m₁.report s'.hub.isClosed)) :
      ∃ m', s'.hub.managers[i]? = some m' ∧
        Leads (m.report s.hub.isClosed) (m'.report s'.hub.isClosed) := by
    by_cases hij : j = i
    · subst hij
      cases hm₀.symm.trans hm
      refine ⟨m₁, ?_, hlead⟩
      rw [hs, List.getElem?_set_self (List.getElem?_eq_some_iff.mp hm).1]
    · refine hstays ?_ hl
      rw [hs, List.getElem?_set_ne hij]
  cases hc with
  | steady hs => exact hstays (by rw [hs.managers]) hs.lasts
  | begins hm₀ hs hb =>
    refine hset hm₀ hb.managers (.of_eq hb.connections) ?_
    rcases hs with hs | ⟨c, hs, hc⟩
    · simp only [Manager.report, hs]
      exact .dials
    · simp only [Manager.report, hs, hc, if_true]
      exact .dials
  | connects _ _ hmanagers _ _ hc =>
    refine ⟨m, hmanagers ▸ hm, leads_of_lasts fun c hs hclosed => ?_⟩
    -- the connection that the manager holds is not the new one
    have hlt := h.ready i c ((state?_eq hm).trans (congrArg some hs))
    rwa [isClosed, hc, List.getElem?_append_left hlt]
  | @ends d j reason m₀ _ _ hm₀ he =>
    generalize s.result d reason = r at he
    cases he with
    | kept hs managers _ connections =>
      refine hset hm₀ managers (.of_eq connections) ?_
      simp only [Manager.report, hs]
      split
      · exact .fails
      · exact .connects
    | failed hs managers _ connections =>
      refine hset hm₀ managers (.of_eq connections) ?_
      simp only [Manager.report, hs]
      exact .fails
    | late _ managers _ lasts => exact hstays (by rw [managers]) lasts
  | closes hm₀ hc => exact hset hm₀ hc.managers hc.lasts .closes

/-! ### A dial that failed -/

/-- The manager has no connection and does not wait for one. -/
def Resting (h : Hub) (i : Nat) : Prop := h.state? i = some .idle ∨ h.state? i = some .closed

theorem resting_of_changes (hc : Changes s a s' es)
    (ha : ∀ party now, a ≠ .want i party now) (hr : Resting s.hub i) : Resting s'.hub i := by
  have hcongr (hs : s'.hub.state? i = s.hub.state? i) : Resting s'.hub i := by
    rwa [Resting, hs]
  cases hc with
  | steady hs => exact hcongr (state?_congr hs.managers i)
  | @begins j party now m _ hm hs hb =>
    have hij : j ≠ i := fun hij => ha party now (by rw [hij])
    exact hcongr (state?_ne hij hb.managers)
  | connects _ _ hm => exact hcongr (state?_congr hm i)
  | @ends d j reason m _ hf hm he =>
    generalize s.result d reason = r at he
    have hset {m₁ : Manager} {d₁ : Nat} (hs : m.state = .dialing d₁)
        (managers : s'.hub.managers = s.hub.managers.set j m₁) : Resting s'.hub i := by
      refine hcongr (state?_ne (fun hij => ?_) managers)
      have hstate := state?_eq hm
      rw [hs, hij] at hstate
      rcases hr with hr | hr <;> cases hstate.symm.trans hr
    cases he with
    | kept hs managers => exact hset hs managers
    | failed hs managers => exact hset hs managers
    | late _ managers => exact hcongr (state?_congr managers i)
  | @closes j m _ hm hc =>
    by_cases hij : j = i
    · exact .inr (hij ▸ state?_self hm hc.managers)
    · exact hcongr (state?_ne hij hc.managers)

/-- When a dial has failed, its manager rests. -/
theorem Orderly.resting_of_failed {reason : String} {e : ForwardError} (h : Orderly s)
    (hf : s.hub.Flies i d) (hs : s.step (.end_ d reason) = some s')
    (ho : s'.hub.outcome? d = some (.error e)) : Resting s'.hub i := by
  obtain ⟨es, -, hc⟩ := step_changes h.owned hs
  cases hc with
  | steady hst =>
    rw [outcome?_eq, hst.fates, show s.hub.fates[d]? = some (i, none) from hf] at ho
    cases ho
  | @ends _ j _ m _ hf' hm he =>
    cases hf.symm.trans hf'
    obtain ⟨o, hfates, -, -, hend⟩ := h.ended hf hm he
    rw [outcome?_eq, hfates, List.getElem?_set_self (List.getElem?_eq_some_iff.mp hf).1] at ho
    cases ho
    cases hend with
    | failed _ hs => exact .inl hs
    | late hs => exact .inr hs

/-- Whoever wants the connection of an idle manager begins a dial. -/
theorem want_begins (hi : s.hub.state? i = some .idle) (party now : Nat) :
    ∃ s', s.step (.want i party now) = some s' ∧
      s'.log = s.log ++ [.began i s.hub.dials.length, .joined party s.hub.dials.length] := by
  obtain ⟨m, hm, hs⟩ := Option.map_eq_some_iff.mp hi
  obtain ⟨place, h', he, -⟩ := ask_begins hm (.inl hs) party now
  refine ⟨{ s with
    hub := h'
    waiting := ⟨party, s.hub.dials.length, place⟩ :: s.waiting
    log := s.log ++ [.began i s.hub.dials.length, .joined party s.hub.dials.length] }, ?_, rfl⟩
  simp only [step, he, joinedBy, wantNotices, if_true]

/-! ### Every course -/

/-- What holds of the dials in every course. -/
structure Sound (s : Course) : Prop where
  orderly : Orderly s
  told : Told s

theorem Sound.step (h : Sound s) (hs : s.step a = some s') : Sound s' := by
  obtain ⟨es, hl, hc⟩ := step_changes h.orderly.owned hs
  exact ⟨h.orderly.changes hc, h.told.step hs hl hc⟩

theorem Sound.run {acts : List Act} (h : Sound s) (hr : s.run acts = some s') : Sound s' :=
  run_preserves (fun _ _ _ _ hs ht => Sound.step hs ht) hr h

theorem sound_opened (longestFrame : Nat) (redirections : List Redirection) :
    Sound (.opened longestFrame redirections) := ⟨orderly_opened .., told_opened ..⟩

theorem Sound.resting_of_run {acts : List Act} (h : Sound s) (hr : s.run acts = some s')
    (ha : ∀ party now, .want i party now ∉ acts) (hi : Resting s.hub i) : Resting s'.hub i := by
  refine (run_preserves (P := fun s => Sound s ∧ Resting s.hub i) ?_ hr ⟨h, hi⟩).2
  intro s s' a hmem hs ht
  obtain ⟨es, -, hc⟩ := step_changes hs.1.orderly.owned ht
  exact ⟨hs.1.step ht, resting_of_changes hc (fun p n he => ha p n (he ▸ hmem)) hs.2⟩

/-- A dial begins only for a manager that lacks a connection, and nobody joins a dial that has
ended. -/
theorem Sound.noticed (h : Sound s) (hs : s.step a = some s') {e : Notice}
    (hl : s'.log = s.log ++ es) (he : e ∈ es) :
    match e with
    | .began i _ => ∃ m, s.hub.managers[i]? = some m ∧ s.hub.Lacks m
    | .joined _ d => s'.hub.Underway d
    | _ => True := by
  obtain ⟨es', hl', hc⟩ := step_changes h.orderly.owned hs
  cases List.append_cancel_left (hl.symm.trans hl')
  cases hc with
  | steady hst hsee =>
    have hsee := hsee e he
    cases e with
    | began => exact hsee.elim
    | joined party d =>
      obtain ⟨i, m, hm, hd⟩ := hsee
      have hf := h.orderly.dialing i d ((state?_eq hm).trans (congrArg some hd))
      exact underway_iff.mpr ⟨i, (flies_congr hst.fates).mpr hf⟩
    | _ => trivial
  | @begins i party now m _ hm hlacks hb =>
    rcases List.mem_cons.mp he with rfl | he
    · exact ⟨m, hm, hlacks⟩
    · cases List.mem_singleton.mp he
      refine underway_iff.mpr ⟨i, ?_⟩
      rw [Flies, hb.fates, ← length_fates, List.getElem?_concat_length]
  | connects => cases he
  | ends =>
    cases List.mem_singleton.mp he
    trivial
  | closes => cases he

/-- **A manager dials once for all who wait, and has one connection at most.** In every course,
at most one dial of a manager is under way. The manager counts the dials that begin for it, as
long as they are fewer than `2 ^ 64`, and one begins only when it is idle or has lost its
connection. All who joined a dial learn the same outcome, and can do so once it has ended. Of all
connections that the dials of a manager have made, at most one is not closed. Nobody joins a dial
that has ended; after one has failed, whoever wants the connection next begins another, unless the
manager was closed. The reported state goes only the ways of `Leads`. -/
theorem one_dial_at_a_time {longestFrame : Nat} {redirections : List Redirection}
    {acts : List Act} (h : (opened longestFrame redirections).run acts = some s) :
    (∀ i d d', s.hub.Flies i d → s.hub.Flies i d' → d = d') ∧
    (∀ (i : Nat) (m : Manager), s.hub.managers[i]? = some m →
      m.dials = (begunFor i s.log).length) ∧
    (∀ party d o, .learned party d o ∈ s.log → .joined party d ∈ s.log ∧
      (∀ party' o', .learned party' d o' ∈ s.log → o' = o) ∧
      ∀ c, o = .ok c → (d, c) ∈ s.made) ∧
    (∀ w ∈ s.waiting, ∀ o, s.hub.outcome? w.dial = some o → ∃ s', s.step (.learn w) = some s' ∧
      s'.log = s.log ++ [.learned w.party w.dial o]) ∧
    (∀ i d d' c c', s.Live i d c → s.Live i d' c' → c = c') ∧
    (∀ a s' es, s.step a = some s' → s'.log = s.log ++ es →
      (∀ i d, .began i d ∈ es → ∃ m, s.hub.managers[i]? = some m ∧ s.hub.Lacks m) ∧
      (∀ party d, .joined party d ∈ es → s'.hub.Underway d) ∧
      ∀ (i : Nat) (m : Manager), s.hub.managers[i]? = some m → ∃ m', s'.hub.managers[i]? = some m' ∧
        Leads (m.report s.hub.isClosed) (m'.report s'.hub.isClosed)) ∧
    (∀ i d reason s₁ e acts' s₂, s.hub.Flies i d → s.step (.end_ d reason) = some s₁ →
      s₁.hub.outcome? d = some (.error e) → s₁.run acts' = some s₂ →
      (∀ party now, .want i party now ∉ acts') → s₂.hub.state? i ≠ some .closed →
      ∀ party now, ∃ s₃, s₂.step (.want i party now) = some s₃ ∧
        s₃.log = s₂.log ++ [.began i s₂.hub.dials.length, .joined party s₂.hub.dials.length]) := by
  have hsound : Sound s := (sound_opened ..).run h
  refine ⟨hsound.orderly.alone, hsound.told.counts, ?_, ?_, ?_, ?_, ?_⟩
  · intro party d o hl
    obtain ⟨hj, ho⟩ := hsound.told.learned party d o hl
    refine ⟨hj, fun party' o' hl' => ?_, fun c hc => ?_⟩
    · exact Option.some.inj ((hsound.told.learned party' d o' hl').2.symm.trans ho)
    · rw [outcome?_eq, hc] at ho
      obtain ⟨⟨i, _⟩, hf, rfl⟩ := Option.bind_eq_some_iff.mp ho
      exact hsound.orderly.resolved i d c hf
  · intro w hw o ho
    refine ⟨{ s with
      waiting := s.waiting.erase w
      log := s.log ++ [.learned w.party w.dial o] }, ?_, rfl⟩
    simp only [Course.step, if_pos hw, ho, Option.map_some]
  · intro i d d' c c' hl hl'
    cases hsound.orderly.single i d d' c c' hl hl'
    exact hsound.orderly.made_eq hl.made hl'.made
  · intro a s' es hs hes
    refine ⟨fun i d he => hsound.noticed hs hes he, fun party d he => hsound.noticed hs hes he,
      fun i m hm => ?_⟩
    obtain ⟨es', _, hc⟩ := step_changes hsound.orderly.owned hs
    exact hsound.orderly.leads hc hm
  · intro i d reason s₁ e acts' s₂ hf hs ho hr hw hopen party now
    have hrest := hsound.orderly.resting_of_failed hf hs ho
    have hrest₂ := (hsound.step hs).resting_of_run hr hw hrest
    exact want_begins (hrest₂.resolve_right hopen) party now

/-- Two parties want a connection, and one dial makes it. -/
def sharedDial : List Act :=
  [.want 0 7 0, .want 0 8 0, .connect 0 64, .end_ 0 "", .learn ⟨7, 0, 0⟩, .learn ⟨8, 0, 1⟩]

/-- Who has learned the outcome of which dial. -/
def learnersOf (log : List Notice) : List (Nat × Nat) :=
  log.filterMap fun
    | .learned party d _ => some (party, d)
    | _ => none

theorem learned_of_learner {party : Nat} {log : List Notice} (h : (party, d) ∈ learnersOf log) :
    ∃ o, .learned party d o ∈ log := by
  obtain ⟨e, he, hs⟩ := List.mem_filterMap.mp h
  cases e with
  | learned _ _ o =>
    cases hs
    exact ⟨o, he⟩
  | _ => cases hs

theorem shared_dial_once :
    ∃ s, (opened 64 [⟨⟨"arb", "ipc:node", 1000⟩, .ipc "node"⟩]).run sharedDial = some s ∧
      (∃ m, s.hub.managers[0]? = some m ∧ m.dials = 1 ∧ (begunFor 0 s.log).length = 1) ∧
      ∃ o, .learned 7 0 o ∈ s.log ∧ .learned 8 0 o ∈ s.log := by
  have hrun : ((opened 64 [⟨⟨"arb", "ipc:node", 1000⟩, .ipc "node"⟩]).run sharedDial).any
      (fun s => decide (s.hub.managers[0]?.map Manager.dials = some 1 ∧
        (7, 0) ∈ learnersOf s.log ∧ (8, 0) ∈ learnersOf s.log)) := by
    decide +kernel
  obtain ⟨s, hs, hd⟩ := (Option.any_eq_true _ _).mp hrun
  obtain ⟨hdials, hseven, height⟩ := of_decide_eq_true hd
  obtain ⟨m, hm, hone⟩ := Option.map_eq_some_iff.mp hdials
  obtain ⟨o, ho⟩ := learned_of_learner hseven
  obtain ⟨o', ho'⟩ := learned_of_learner height
  obtain ⟨-, hcounts, hlearned, -⟩ := one_dial_at_a_time hs
  refine ⟨s, hs, ⟨m, hm, hone, ?_⟩, o, ho, ?_⟩
  · rw [← hcounts 0 m hm, hone]
  · rw [← (hlearned 7 0 o ho).2.1 8 o' ho']
    exact ho'

end Course
end Switchboard.Redirect
