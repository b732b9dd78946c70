import Switchboard.Json.Value
import Switchboard.Proofs.Json.Skimming

/-! The shape of written texts.

Lists and objects are written as a first part and then each other part behind a comma;
readers go through them in that order. -/
namespace Switchboard.Json

/-- The parts after the first one, each behind a comma. -/
def afterCommas (parts : List (List Char)) : List Char := parts.flatMap (',' :: ·)

theorem afterCommas_cons (p : List Char) (parts : List (List Char)) :
    afterCommas (p :: parts) = ',' :: (p ++ afterCommas parts) := by
  simp [afterCommas]

/-- No number goes on with a comma, nor with the bracket that follows the last part. -/
theorem stops_afterCommas (parts : List (List Char)) (c : Char) (hc : stopsNumber c = true)
    (u : List Char) : Stops (afterCommas parts ++ c :: u) := by
  cases parts with
  | nil => exact Heads.cons_iff.mpr hc
  | cons p parts =>
    rw [afterCommas_cons]
    exact Heads.cons_iff.mpr (by decide)

theorem intercalate_cons (p : List Char) (parts : List (List Char)) :
    List.intercalate [','] (p :: parts) = p ++ afterCommas parts := by
  induction parts generalizing p with
  | nil => simp [List.intercalate, afterCommas]
  | cons q parts ih =>
    have h : List.intercalate [','] (p :: q :: parts) =
        p ++ ',' :: List.intercalate [','] (q :: parts) := by
      simp [List.intercalate, List.intersperse]
    rw [h, ih, afterCommas_cons]

theorem writeList_cons (p : List Char) (parts : List (List Char)) :
    writeList (p :: parts) = '[' :: (p ++ (afterCommas parts ++ [']'])) := by
  simp [writeList, intercalate_cons]

theorem writeObject_cons (p : List Char) (parts : List (List Char)) :
    writeObject (p :: parts) = '\x7b' :: (p ++ (afterCommas parts ++ ['\x7d'])) := by
  simp [writeObject, intercalate_cons]

end Switchboard.Json
