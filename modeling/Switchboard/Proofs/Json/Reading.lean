import Switchboard.Json.Record

/-! When a reader succeeds.

One equivalence for each way of making a reader out of others: what it takes for the
reader to give a certain result and leave a certain rest. -/
namespace Switchboard.Json

variable {α β : Type} {width : Char → Nat}

namespace Reader

theorem ofHalting_run {run : List Char → Except Halt (α × List Char)}
    {shrinks : ∀ {s a r}, run s = .ok (a, r) → r.length ≤ s.length} {s : List Char}
    {x : α × List Char} : (ofHalting run @shrinks).run s = .ok x ↔ run s = .ok x := by
  simp only [ofHalting]
  cases run s with
  | error halt => simp
  | ok y => simp

theorem map_run {f : α → β} {p : Reader α} {s r : List Char} {b : β} :
    (p.map f).run s = .ok (b, r) ↔ ∃ a, p.run s = .ok (a, r) ∧ f a = b := by
  simp only [map]
  cases p.run s with
  | error stop => simp
  | ok x =>
    obtain ⟨a, t⟩ := x
    simp only [Except.ok.injEq, Prod.mk.injEq]
    constructor
    · rintro ⟨rfl, rfl⟩
      exact ⟨a, ⟨rfl, rfl⟩, rfl⟩
    · rintro ⟨_, ⟨rfl, rfl⟩, rfl⟩
      exact ⟨rfl, rfl⟩

theorem document_eq_ok_iff {p : Reader α} {s : List Char} {a : α} :
    p.document width s = .ok a ↔ ∃ r, p.run s = .ok (a, r) ∧ skipBlank r = [] := by
  unfold document
  cases p.run s with
  | error stop => cases stop <;> simp
  | ok x =>
    obtain ⟨b, r⟩ := x
    cases hr : skipBlank r with
    | nil =>
      simp only [hr, Except.ok.injEq, Prod.mk.injEq]
      constructor
      · rintro rfl
        exact ⟨r, ⟨rfl, rfl⟩, hr⟩
      · rintro ⟨_, ⟨rfl, _⟩, _⟩
        rfl
    | cons c v =>
      simp only [hr, Except.ok.injEq, Prod.mk.injEq, reduceCtorEq, false_iff]
      rintro ⟨_, ⟨_, rfl⟩, hv⟩
      rw [hr] at hv
      cases hv

theorem raw_run {s r : List Char} {x : Raw} :
    (raw width).run s = .ok (x, r) ↔ skimText width s = .ok (x.chars, r) := by
  simp only [raw, map_run, ofHalting_run]
  constructor
  · rintro ⟨t, ht, rfl⟩
    exact ht
  · intro h
    exact ⟨x.chars, h, rfl⟩

end Reader
end Switchboard.Json
