import Switchboard.Call.Forwarding
import Switchboard.Proofs.Hub.Accounting

/-! A manager that was closed stays closed.

Its record never changes again (`Shut.record`), so that everybody who comes is refused. The
dial that was under way ends as closed however it ends (`Shut.late`), and nobody gets what it
has made (`Forsaken`). -/
namespace Switchboard.Redirect.Course
open Hub

variable {s s' : Course} {a : Act} {acts : List Act} {es : List Notice} {i d c : Nat} {m : Manager}

/-! ### After a manager was closed -/

theorem Changes.length (hc : Changes s a s' es) :
    s'.hub.managers.length = s.hub.managers.length := by
  have hset {j : Nat} {m' : Manager} (h : s'.hub.managers = s.hub.managers.set j m') :
      s'.hub.managers.length = s.hub.managers.length := by rw [h, List.length_set]
  cases hc with
  | steady hs => rw [hs.managers]
  | begins _ _ hb => exact hset hb.managers
  | connects _ _ managers => rw [managers]
  | @ends d j reason m _ _ _ he =>
    generalize s.result d reason = r at he
    cases he with
    | kept _ managers => exact hset managers
    | failed _ managers => exact hset managers
    | late _ managers => rw [managers]
  | closes _ hcl => exact hset hcl.managers

/-- Since it was closed the manager has this record, and the dials that were under way then have
ended as closed, if they have ended. -/
structure Shut (s₀ : Course) (i : Nat) (m : Manager) (s : Course) : Prop where
  record : s.hub.managers[i]? = some m
  late : ∀ d, s₀.hub.Flies i d → s.hub.Flies i d ∨ s.hub.fates[d]? = some (i, some (.error .closed))

theorem Shut.changes {s₀ : Course} (h : Shut s₀ i m s) (hcl : m.state = .closed)
    (hc : Changes s a s' es) : Shut s₀ i m s' := by
  have hkeep (managers : s'.hub.managers[i]? = s.hub.managers[i]?)
      (fates : ∀ (d : Nat) o, s.hub.fates[d]? = some (i, o) → s'.hub.fates[d]? = some (i, o)) :
      Shut s₀ i m s' := by
    refine ⟨managers.trans h.record, fun d hd => ?_⟩
    exact (h.late d hd).imp (fates d _) (fates d _)
  have hother {j : Nat} {m₁ m₂ : Manager} (hm : s.hub.managers[j]? = some m₁)
      (hst : m₁.state ≠ .closed) (managers : s'.hub.managers = s.hub.managers.set j m₂) :
      j ≠ i ∧ s'.hub.managers[i]? = s.hub.managers[i]? := by
    have hj : j ≠ i := fun hj => by
      subst hj
      cases hm.symm.trans h.record
      exact hst hcl
    exact ⟨hj, by rw [managers, List.getElem?_set_ne hj]⟩
  cases hc with
  | steady hs => exact hkeep (by rw [hs.managers]) fun d o ho => hs.fates ▸ ho
  | begins hm hs hb =>
    refine hkeep (hother hm ?_ hb.managers).2 fun d o ho => ?_
    · rcases hs with hs | ⟨c, hs, _⟩ <;> simp [hs]
    · rw [hb.fates, List.getElem?_append_left (List.getElem?_eq_some_iff.mp ho).1, ho]
  | connects _ _ managers fates => exact hkeep (by rw [managers]) fun d o ho => fates ▸ ho
  | @ends d' j reason m₁ _ hflies hm he =>
    generalize s.result d' reason = r at he
    have hset {o' : Except ForwardError Nat} (hj : j ≠ i)
        (fates : s'.hub.fates = s.hub.fates.set d' (j, some o')) :
        ∀ (d : Nat) o, s.hub.fates[d]? = some (i, o) → s'.hub.fates[d]? = some (i, o) := fun d o ho => by
      have hne : d' ≠ d := fun hd => by
        subst hd
        cases hflies.symm.trans ho
        exact hj rfl
      rw [fates, List.getElem?_set_ne hne, ho]
    cases he with
    | kept hs managers fates =>
      obtain ⟨hj, hmgr⟩ := hother hm (by simp [hs]) managers
      exact hkeep hmgr (hset hj fates)
    | failed hs managers fates =>
      obtain ⟨hj, hmgr⟩ := hother hm (by simp [hs]) managers
      exact hkeep hmgr (hset hj fates)
    | late hs managers fates =>
      refine ⟨managers ▸ h.record, fun d hd => ?_⟩
      have hlt := (List.getElem?_eq_some_iff.mp hflies).1
      by_cases hdd : d' = d
      · subst hdd
        rcases h.late d' hd with hfl | hfl
        · cases hflies.symm.trans hfl
          exact .inr (by rw [fates, List.getElem?_set_self hlt])
        · cases hflies.symm.trans hfl
      · rw [Flies, fates, List.getElem?_set_ne hdd]
        exact h.late d hd
  | @closes j m₁ _ hm hcl' =>
    refine hkeep ?_ fun d o ho => hcl'.fates ▸ ho
    by_cases hj : j = i
    · subst hj
      cases hm.symm.trans h.record
      rw [hcl'.managers, List.getElem?_set_self (List.getElem?_eq_some_iff.mp hm).1, hm, ← hcl]
    · rw [hcl'.managers, List.getElem?_set_ne hj]

theorem Accounted.shut_run {s₀ : Course} (hf : Accounted s) (h : Shut s₀ i m s) (hcl : m.state = .closed)
    (hr : s.run acts = some s') : Shut s₀ i m s' := by
  refine (run_preserves (P := fun s => Accounted s ∧ Shut s₀ i m s) ?_ hr ⟨hf, h⟩).2
  intro s s' a _ hs ht
  obtain ⟨es, -, hc⟩ := step_changes hs.1.orderly.owned ht
  exact ⟨hs.1.step ht, hs.2.changes hcl hc⟩

theorem shut_of_close {s₀ : Course} (hm : s₀.hub.managers[i]? = some m)
    (hs : s₀.step (.close i) = some s) : Shut s₀ i { m with state := .closed } s := by
  cases hs
  have hc := closeManager_closes hm
  refine ⟨?_, fun d hd => .inl ((flies_congr hc.fates).mpr hd)⟩
  rw [hc.managers, List.getElem?_set_self (List.getElem?_eq_some_iff.mp hm).1]

/-- Whoever waits for a dial waits on, or has learned its outcome, or has left. -/
theorem step_stays (hs : s.step a = some s') {w : Waiter} (hw : w ∈ s.waiting) :
    w ∈ s'.waiting ∨ (∃ o, .learned w.party w.dial o ∈ s'.log) ∨ a = .leave w := by
  cases a with
  | want i party now =>
    simp only [Course.step] at hs
    generalize s.hub.ask i party now = r at hs
    obtain ⟨access, hub⟩ := r
    cases hs
    cases access with
    | waits => exact .inl (List.mem_cons_of_mem _ hw)
    | _ => exact .inl hw
  | learn w' =>
    simp only [Course.step] at hs
    split at hs
    · obtain ⟨o, _, rfl⟩ := Option.map_eq_some_iff.mp hs
      by_cases hww : w = w'
      · subst hww
        exact .inr (.inl ⟨o, List.mem_append_right _ (List.mem_singleton_self _)⟩)
      · exact .inl ((List.mem_erase_of_ne hww).mpr hw)
    · cases hs
  | leave w' =>
    simp only [Course.step] at hs
    split at hs <;> cases hs
    by_cases hww : w = w'
    · exact .inr (.inr (hww ▸ rfl))
    · exact .inl ((List.mem_erase_of_ne hww).mpr hw)
  | connect d capacity =>
    simp only [Course.step] at hs
    split at hs <;> cases hs
    exact .inl hw
  | end_ d reason =>
    simp only [Course.step] at hs
    split at hs <;> cases hs
    exact .inl hw
  | settle c steps =>
    obtain ⟨_, _, rfl⟩ := Option.map_eq_some_iff.mp hs
    exact .inl hw
  | move c m =>
    obtain ⟨_, _, rfl⟩ := Option.map_eq_some_iff.mp hs
    exact .inl hw
  | _ =>
    cases hs
    exact .inl hw

/-- What was seen stays seen. -/
theorem Accounted.log_run (hf : Accounted s) (hr : s.run acts = some s') : s.log <+: s'.log := by
  refine (run_preserves (P := fun t => Accounted t ∧ s.log <+: t.log) ?_ hr ⟨hf, List.prefix_rfl⟩).2
  intro t t' a _ ht hstep
  obtain ⟨es, hl, -⟩ := step_changes ht.1.orderly.owned hstep
  exact ⟨ht.1.step hstep, ht.2.trans (hl ▸ List.prefix_append ..)⟩

theorem Accounted.stays_run (hf : Accounted s) (hr : s.run acts = some s') {w : Waiter}
    (hw : w ∈ s.waiting) :
    w ∈ s'.waiting ∨ (∃ o, .learned w.party w.dial o ∈ s'.log) ∨ .leave w ∈ acts := by
  induction acts generalizing s with
  | nil =>
    cases hr
    exact .inl hw
  | cons a rest ih =>
    obtain ⟨t, ht, hr⟩ := Option.bind_eq_some_iff.mp hr
    rcases step_stays ht hw with hw | ⟨o, ho⟩ | rfl
    · rcases ih (hf.step ht) hr hw with h | h | h
      · exact .inl h
      · exact .inr (.inl h)
      · exact .inr (.inr (List.mem_cons_of_mem a h))
    · exact .inr (.inl ⟨o, ((hf.step ht).log_run hr).subset ho⟩)
    · exact .inr (.inr (List.mem_cons_self ..))

/-! ### The dial that was under way -/

/-- What becomes of a dial that was under way when its manager was closed. -/
structure Forsaken (s : Course) (d : Nat) : Prop where
  outcome : s.hub.Underway d ∨ s.hub.outcome? d = some (.error .closed)
  /-- However it ends, it ends as closed, and the connection it has made is aborted. -/
  ends : s.hub.Underway d → ∀ reason, ∃ s', s.step (.end_ d reason) = some s' ∧
    s'.hub.outcome? d = some (.error .closed) ∧
    ∀ c, (d, c) ∈ s.made →
      s'.hub.connections[c]? = (s.hub.connections[c]?).map Connection.abort
  /-- Whoever waits for it waits until it has ended, and can learn then that the manager is
  closed; nobody learns anything else. -/
  waits : ∀ (f : Forwarding) place party now, f.stage = .dialing d place →
    f.go s.hub party now = (.pending f, s.hub) ∧ s.hub.Underway d ∨
      f.go s.hub party now = (.ended (.error .closed), s.hub)
  learns : ∀ w ∈ s.waiting, w.dial = d → s.hub.Underway d ∨ ∃ s', s.step (.learn w) = some s' ∧
    s'.log = s.log ++ [.learned w.party d (.error .closed)]
  learned : ∀ party o, .learned party d o ∈ s.log → o = .error .closed
  /-- What it has made no manager holds and nobody gets; it is closed when the dial has ended. -/
  withheld : ∀ c, (d, c) ∈ s.made → (∀ j, s.hub.state? j ≠ some (.ready c)) ∧
    (∀ j party now, (s.hub.ask j party now).1 ≠ .connected c) ∧
    (∀ party d', .learned party d' (.ok c) ∉ s.log) ∧
    (s.hub.Underway d ∨ s.hub.isClosed c = true)

theorem Accounted.forsaken (hf : Accounted s) (hm : s.hub.managers[i]? = some m) (hcl : m.state = .closed)
    (hd : s.hub.Flies i d ∨ s.hub.fates[d]? = some (i, some (.error .closed))) :
    Forsaken s d := by
  have hout : s.hub.Underway d ∨ s.hub.outcome? d = some (.error .closed) := by
    refine hd.imp (fun h => underway_iff.mpr ⟨i, h⟩) fun h => ?_
    rw [outcome?_eq, h]
    rfl
  have hnot (o : Except ForwardError Nat) (ho : s.hub.outcome? d = some o) :
      o = .error .closed := by
    rcases hout with hu | he
    · obtain ⟨j, hfl⟩ := underway_iff.mp hu
      cases (outcome?_flies hfl).symm.trans ho
    · exact Option.some.inj (ho.symm.trans he)
  -- whoever has the connection has it from a dial that has ended with it
  have hkept (c d' : Nat) (hc : (d, c) ∈ s.made) : s.hub.outcome? d' ≠ some (.ok c) := by
    intro ho
    obtain ⟨⟨j, _⟩, hfate, rfl⟩ := Option.bind_eq_some_iff.mp (outcome?_eq .. ▸ ho)
    have hsame := List.inj_on_of_nodup_map hf.distinct (hf.orderly.resolved j d' c hfate) hc rfl
    cases hsame
    cases hnot _ ho
  have hready (c : Nat) (hc : (d, c) ∈ s.made) (j : Nat) : s.hub.state? j ≠ some (.ready c) := by
    intro hs
    obtain ⟨d', ho⟩ := hf.granted j c hs
    exact hkept c d' hc ho
  refine ⟨hout, ?ends, ?waits, ?learns, ?learned, ?withheld⟩
  case ends =>
    intro hu reason
    obtain ⟨x, hx, hopen⟩ := hu
    have hfl : s.hub.Flies i d := hd.resolve_right fun h => by
      simp [fates, hx, hopen] at h
    have hxm : x.manager = i := by
      simpa [Flies, fates, hx, hopen] using hfl
    refine ⟨{ s with
      hub := s.hub.endDial d (s.result d reason)
      log := s.log ++ [.ended d] }, ?_, ?_, fun c hc => ?_⟩
    · simp only [Course.step, if_pos (show s.hub.Underway d from ⟨x, hx, hopen⟩)]
    · have he := endDial_ends hx (hxm ▸ hm) (s.result d reason)
      generalize s.result d reason = r at he
      cases he with
      | kept hs => cases hcl.symm.trans hs
      | failed hs => cases hcl.symm.trans hs
      | late _ _ fates => exact outcome?_self (hxm ▸ hfl) fates
    · simp only [hf.orderly.result_eq hc, endDial_closed hx (hxm ▸ hm) hcl,
        List.getElem?_modify_eq]
      rfl
  case waits =>
    intro f place party now hst
    rcases hout with hu | he
    · obtain ⟨j, hfl⟩ := underway_iff.mp hu
      refine .inl ⟨?_, hu⟩
      simp only [Forwarding.go, hst, outcome?_flies hfl]
    · refine .inr ?_
      simp only [Forwarding.go, hst, he]
  case learns =>
    intro w hw hwd
    refine hout.imp id fun ho => ⟨{ s with
      waiting := s.waiting.erase w
      log := s.log ++ [.learned w.party d (.error .closed)] }, ?_, rfl⟩
    simp only [Course.step, if_pos hw, hwd, ho, Option.map_some]
  case learned => exact fun party o hl => hnot o (hf.told.learned party d o hl).2
  case withheld =>
    intro c hc
    refine ⟨hready c hc, fun j party now ha => hready c hc j (ready_of_ask ha), ?_, ?_⟩
    · exact fun party d' hl => hkept c d' hc (hf.told.learned party d' _ hl).2
    · exact hout.imp id fun ho => hf.spent d c _ ho hc

/-! ### Any course in which managers are closed -/

theorem run_append (s : Course) (a b : List Act) :
    s.run (a ++ b) = (s.run a).bind fun t => t.run b := by
  induction a generalizing s with
  | nil => rfl
  | cons x rest ih =>
    cases h : s.step x with
    | none => simp only [List.cons_append, run, h, Option.bind_none]
    | some t =>
      simp only [List.cons_append, run, h, Option.bind_some]
      exact ih t

/-- A course goes on from where it was. -/
theorem run_cons_of_append {s₀ t : Course} {before after : List Act}
    (hacts : acts = before ++ a :: after) (hb : t.run before = some s₀)
    (h : t.run acts = some s) : ∃ s₁, s₀.step a = some s₁ ∧ s₁.run after = some s := by
  rw [hacts, run_append, hb, Option.bind_some] at h
  exact Option.bind_eq_some_iff.mp h

theorem dooms_run (hd : s.hub.Dooms c) (hr : s.run acts = some s') : s'.hub.Dooms c :=
  run_preserves (fun _ _ _ _ hd ht => (step_tends ht).dooms hd) hr hd

/-- Closing one manager after the other is a course. -/
theorem run_closes (s : Course) (is : List Nat) :
    s.run (is.map .close) = some { s with hub := is.foldl Hub.closeManager s.hub } := by
  induction is generalizing s with
  | nil => rfl
  | cons i rest ih => exact ih { s with hub := s.hub.closeManager i }

theorem length_managers {longestFrame : Nat} {redirections : List Redirection}
    (h : (opened longestFrame redirections).run acts = some s) :
    s.hub.managers.length = redirections.length := by
  refine (run_preserves (P := fun s => Accounted s ∧ s.hub.managers.length = redirections.length)
    ?_ h ⟨accounted_opened .., List.length_map ..⟩).2
  intro s s' a _ hs ht
  obtain ⟨es, -, hc⟩ := step_changes hs.1.orderly.owned ht
  exact ⟨hs.1.step ht, hc.length.trans hs.2⟩

/-- **Closed is final.** Once a manager was closed, whatever is done after that: it is reported
closed, it begins no dial, it refuses everybody who wants its connection, and closing it again
changes nothing. The dial that was under way is forsaken, and who waited for it still waits,
has learned that the manager is closed, or has left. The connection that the manager held
sinks. So when all managers of a hub were closed, one after the other and whatever was done
between, all stay closed, and what any of their dials has made sinks once the dial has
ended. -/
theorem closed_for_good {longestFrame : Nat} {redirections : List Redirection} {acts : List Act}
    (h : (opened longestFrame redirections).run acts = some s) :
    (∀ before i after s₀ m₀, acts = before ++ .close i :: after →
      (opened longestFrame redirections).run before = some s₀ →
      s₀.hub.managers[i]? = some m₀ →
      (∃ m, s.hub.managers[i]? = some m ∧ m.report s.hub.isClosed = "closed" ∧
        m.dials = m₀.dials) ∧
      (∀ party now, s.hub.ask i party now = (.refused, s.hub)) ∧
      (∀ (f : Forwarding) party now, f.manager = i → f.stage = .wanting →
        f.go s.hub party now = (.ended (.error .closed), s.hub)) ∧
      (∀ d, s₀.hub.Flies i d → Forsaken s d ∧ ∀ w ∈ s₀.waiting, w.dial = d →
        w ∈ s.waiting ∨ .learned w.party d (.error .closed) ∈ s.log ∨ .leave w ∈ after) ∧
      (∀ c, m₀.state = .ready c → s.hub.Sinks c) ∧
      s.hub.closeManager i = s.hub) ∧
    ((∀ i < redirections.length, .close i ∈ acts) → ∀ i < redirections.length,
      s.hub.state? i = some .closed ∧
      ∀ d c, (d, c) ∈ s.made → (∃ o, s.hub.fates[d]? = some (i, some o)) → s.hub.Sinks c) ∧
    s.run ((List.range redirections.length).map .close) = some { s with hub := s.hub.closeAll } := by
  have hacc : Accounted s := (accounted_opened ..).run h
  have hlen := length_managers h
  refine ⟨?one, ?all, ?closeAll⟩
  case one =>
    intro before i after s₀ m₀ hacts hb hm
    obtain ⟨s₁, h₁, h₂⟩ := run_cons_of_append hacts hb h
    have hacc₀ : Accounted s₀ := (accounted_opened ..).run hb
    have hshut := (hacc₀.step h₁).shut_run (shut_of_close hm h₁) rfl h₂
    have hrefused := ask_closed hshut.record rfl
    refine ⟨⟨_, hshut.record, rfl, rfl⟩, hrefused, ?_, ?_, ?_, closeManager_closed hshut.record rfl⟩
    · intro f party now hf hst
      simp only [Forwarding.go, hst, hf, hrefused]
    · intro d hd
      have hforsaken := hacc.forsaken hshut.record rfl (hshut.late d hd)
      refine ⟨hforsaken, fun w hw hwd => ?_⟩
      have hw₁ : w ∈ s₁.waiting := by
        cases h₁
        exact hw
      rcases (hacc₀.step h₁).stays_run h₂ hw₁ with hw | ⟨o, ho⟩ | hw
      · exact .inl hw
      · rw [hwd] at ho
        exact .inr (.inl (hforsaken.learned w.party o ho ▸ ho))
      · exact .inr (.inr hw)
    · intro c hc
      have hc₀ := hacc₀.orderly.ready i c ((state?_eq hm).trans (congrArg some hc))
      have hdoom : s₁.hub.Dooms c := by
        cases h₁
        exact closeManager_dooms hm hc hc₀
      exact (dooms_run hdoom h₂).sinks hacc.heeds
  case all =>
    intro hclosed i hi
    obtain ⟨before, after, hacts⟩ := List.append_of_mem (hclosed i hi)
    obtain ⟨s₀, hb, -⟩ := Option.bind_eq_some_iff.mp (run_append .. ▸ hacts ▸ h)
    have hm := List.getElem?_eq_getElem (length_managers hb ▸ hi : i < s₀.hub.managers.length)
    obtain ⟨s₁, h₁, h₂⟩ := run_cons_of_append hacts hb h
    have hshut := (((accounted_opened ..).run hb).step h₁).shut_run (shut_of_close hm h₁) rfl h₂
    have hstate : s.hub.state? i = some .closed := state?_eq hshut.record
    refine ⟨hstate, fun d c hc hended => Dooms.sinks ?_ hacc.heeds⟩
    have hlt := (hacc.orderly.known d c hc).2
    cases hopen : s.hub.isClosed c with
    | true =>
      rw [isClosed, List.getElem?_eq_getElem hlt] at hopen
      exact ⟨_, List.getElem?_eq_getElem hlt, .inl hopen⟩
    | false =>
      obtain ⟨o, ho⟩ := hended
      refine (hacc.doomed i d c hstate ⟨hc, ⟨_, ho⟩, hopen⟩).resolve_left fun hf => ?_
      cases hf.symm.trans ho
  case closeAll => rw [run_closes, closeAll, hlen]

/-- A dial of which it is known whether it has ended. -/
theorem fate_of_shape {fates : List (Nat × Option (Except ForwardError Nat))} {ended : Bool}
    (h : (fates.map fun f => (f.1, f.2.isSome))[d]? = some (i, ended)) :
    ∃ o, fates[d]? = some (i, o) ∧ o.isSome = ended := by
  rw [List.getElem?_map] at h
  obtain ⟨⟨_, o⟩, hf, hp⟩ := Option.map_eq_some_iff.mp h
  cases hp
  exact ⟨o, hf, rfl⟩

/-- Two managers are closed, one while its dial is under way and one that has a connection. -/
def closingBoth : List Act :=
  [.want 0 7 0, .want 1 8 0, .connect 1 64, .end_ 1 "", .connect 0 64, .close 0, .end_ 0 "",
    .learn ⟨7, 0, 0⟩, .close 1]

theorem both_closed :
    let redirections : List Redirection :=
      [⟨⟨"arb", "ipc:node", 1000⟩, .ipc "node"⟩, ⟨⟨"eth", "ipc:other", 1000⟩, .ipc "other"⟩]
    ∃ s, (opened 64 redirections).run closingBoth = some s ∧
      (∃ m, s.hub.managers[0]? = some m ∧ m.report s.hub.isClosed = "closed" ∧ m.dials = 1) ∧
      .learned 7 0 (.error .closed) ∈ s.log ∧ s.hub.Sinks 0 ∧ s.hub.Sinks 1 := by
  intro redirections
  have hrun : ((opened 64 redirections).run closingBoth).any (fun s =>
      decide ((7, 0) ∈ learnersOf s.log ∧ s.made = [(1, 0), (0, 1)] ∧
        s.hub.fates.map (fun f => (f.1, f.2.isSome)) = [(0, true), (1, true)])) := by
    decide +kernel
  have hbefore : ((opened 64 redirections).run (closingBoth.take 5)).any (fun s =>
      decide (s.hub.managers[0]?.map Manager.dials = some 1 ∧
        s.hub.fates.map (fun f => (f.1, f.2.isSome)) = [(0, false), (1, true)])) := by
    decide +kernel
  obtain ⟨s, hs, hd⟩ := (Option.any_eq_true _ _).mp hrun
  obtain ⟨s₀, hs₀, hd₀⟩ := (Option.any_eq_true _ _).mp hbefore
  obtain ⟨hseven, hmade, hended⟩ := of_decide_eq_true hd
  obtain ⟨hdials, hflies⟩ := of_decide_eq_true hd₀
  obtain ⟨m₀, hm₀, hdialed⟩ := Option.map_eq_some_iff.mp hdials
  obtain ⟨o, ho⟩ := learned_of_learner hseven
  obtain ⟨hone, hall, -⟩ := closed_for_good hs
  have hclosed (j : Nat) (hj : j < redirections.length) : .close j ∈ closingBoth := by
    have hj : j = 0 ∨ j = 1 := by
      change j < 2 at hj
      omega
    rcases hj with rfl | rfl <;> simp [closingBoth]
  have hsinks (j d c : Nat) (hj : j < 2) (hc : (d, c) ∈ s.made)
      (hf : (s.hub.fates.map fun f => (f.1, f.2.isSome))[d]? = some (j, true)) :
      s.hub.Sinks c := by
    obtain ⟨r, hr, hsome⟩ := fate_of_shape hf
    obtain ⟨o, rfl⟩ := Option.isSome_iff_exists.mp hsome
    exact (hall hclosed j hj).2 d c hc ⟨o, hr⟩
  obtain ⟨⟨m, hm, hreport, hcount⟩, -, -, hdial, -⟩ :=
    hone (closingBoth.take 5) 0 (closingBoth.drop 6) s₀ m₀ rfl hs₀ hm₀
  have hfl : s₀.hub.Flies 0 0 := by
    obtain ⟨r, hr, hnone⟩ := @fate_of_shape 0 0 _ false (by rw [hflies]; rfl)
    cases r with
    | none => exact hr
    | some => cases hnone
  refine ⟨s, hs, ⟨m, hm, hreport, hcount.trans hdialed⟩, ?_, ?_, ?_⟩
  · exact (hdial 0 hfl).1.learned 7 o ho ▸ ho
  · exact hsinks 1 1 0 (by decide) (by rw [hmade]; simp) (by rw [hended]; rfl)
  · exact hsinks 0 0 1 (by decide) (by rw [hmade]; simp) (by rw [hended]; rfl)

end Switchboard.Redirect.Course
