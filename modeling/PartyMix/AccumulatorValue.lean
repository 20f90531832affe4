import PartyMix.Backends
import PartyMix.PaymentAcceptance

/-!
# The value of the mock accumulator

`append_set` and `remove_set` of the mock hash the number of sets they leave, and
`new_manager` starts from the value zero.  After the first call the value is a function
of the sets held; the manager without any call holds no set either, but has another
value unless the hash of "0" is zero.
-/

namespace PartyMix

open DebugText FixedBytes

variable {hash : List UInt8 → Bytes 32}

/-- A call that changes the manager's state. -/
inductive SetCall where
  | appendSet (set : List ToSAccSetElement)
  | removeSet

def NullifierAccumulatorBackend.perform (B : NullifierAccumulatorBackend)
    (state : B.ManagerState) : SetCall → B.ManagerState
  | .appendSet set => B.appendSet state set
  | .removeSet => B.removeSet state

/-- The state after the calls, from `new_manager()`. -/
def NullifierAccumulatorBackend.after (B : NullifierAccumulatorBackend) (calls : List SetCall) :
    B.ManagerState :=
  calls.foldl B.perform B.newManager

/-- The state of the mock after the calls. -/
def mockAfter (hash : List UInt8 → Bytes 32) (calls : List SetCall) : MockNullifierState :=
  (mockNullifierAccumulator hash).after calls

/-- The value that a call leaves when it leaves `n` sets. -/
def countValue (hash : List UInt8 → Bytes 32) (n : Nat) : ToSAccValue :=
  ⟨hash (intoBytes (debugNat n))⟩

theorem mockAfter_snoc (hash : List UInt8 → Bytes 32) (calls : List SetCall) (call : SetCall) :
    mockAfter hash (calls ++ [call]) =
      (mockNullifierAccumulator hash).perform (mockAfter hash calls) call :=
  List.foldl_concat _ _ _ _

/-- After a call the value counts the sets. -/
theorem value_mockAfter {calls : List SetCall} (hcalls : calls ≠ []) :
    (mockAfter hash calls).value = countValue hash (mockAfter hash calls).sets.length := by
  rcases List.eq_nil_or_concat calls with hnil | ⟨before, call, rfl⟩
  · exact absurd hnil hcalls
  · rw [List.concat_eq_append, mockAfter_snoc]
    cases call with
    | appendSet set => rfl
    | removeSet => rfl

theorem sets_remove_append (hash : List UInt8 → Bytes 32) (calls : List SetCall)
    (set : List ToSAccSetElement) :
    (mockAfter hash (calls ++ [.appendSet set] ++ [.removeSet])).sets =
      (mockAfter hash calls).sets := by
  rw [mockAfter_snoc, mockAfter_snoc]
  exact List.dropLast_concat

/-- Against the new manager: the other one holds no set either, so its value is that
    of no sets. -/
theorem value_eq_new_iff {calls : List SetCall} (hcalls : calls ≠ [])
    (hsets : (mockAfter hash calls).sets = (mockAfter hash []).sets) :
    (mockAfter hash calls).value = (mockAfter hash []).value ↔
      countValue hash 0 = ⟨zeroBytes 32⟩ := by
  rw [value_mockAfter hcalls, hsets]
  exact Iff.rfl

theorem values_agree_iff {left right : List SetCall}
    (hsets : (mockAfter hash left).sets = (mockAfter hash right).sets) :
    (mockAfter hash left).value = (mockAfter hash right).value ↔
      ((left = [] ↔ right = []) ∨ countValue hash 0 = ⟨zeroBytes 32⟩) := by
  by_cases hleft : left = []
  · subst hleft
    by_cases hright : right = []
    · subst hright
      exact iff_of_true rfl (Or.inl Iff.rfl)
    · -- only the right one has been called
      rw [eq_comm, value_eq_new_iff hright hsets.symm]
      simp [hright]
  · by_cases hright : right = []
    · -- only the left one has been called
      subst hright
      rw [value_eq_new_iff hleft hsets]
      simp [hleft]
    · -- both values count the same sets
      have hsame : (mockAfter hash left).value = (mockAfter hash right).value := by
        rw [value_mockAfter hleft, value_mockAfter hright, hsets]
      exact iff_of_true hsame (Or.inl (iff_of_false hleft hright))

/-- **The value of the mock.**  Two sequences of calls that leave the same sets leave the
    same value exactly when both made a call or neither did, or the hash of "0" is the
    zero of a new manager.  So removing the set just appended gives the value back in
    every state that a call has reached. -/
theorem mock_values_agree_iff (hash : List UInt8 → Bytes 32) (left right : List SetCall)
    (hsets : (mockAfter hash left).sets = (mockAfter hash right).sets) :
    ((mockAfter hash left).value = (mockAfter hash right).value ↔
      ((left = [] ↔ right = []) ∨ countValue hash 0 = ⟨zeroBytes 32⟩)) ∧
    ∀ set, ((mockAfter hash (left ++ [.appendSet set] ++ [.removeSet])).value =
        (mockAfter hash left).value ↔ left ≠ [] ∨ countValue hash 0 = ⟨zeroBytes 32⟩) := by
  refine ⟨values_agree_iff hsets, ?_⟩
  intro set
  have hcalls : left ++ [.appendSet set] ++ [.removeSet] ≠ [] := by simp
  rw [values_agree_iff (sets_remove_append hash left set)]
  apply or_congr_left
  constructor
  · intro hboth hnil
    exact hcalls (hboth.mpr hnil)
  · intro hleft
    exact iff_of_false hcalls hleft

/-- A new manager has the value zero; appending an empty set and removing it leaves no
    set and the hash of "0". -/
theorem emptied_manager_value_differs :
    (mockAfter rollingHash [.appendSet [], .removeSet]).sets = (mockAfter rollingHash []).sets ∧
      (mockAfter rollingHash []).value = ⟨zeroBytes 32⟩ ∧
      (mockAfter rollingHash [.appendSet [], .removeSet]).value ≠
        (mockAfter rollingHash []).value := by
  refine ⟨rfl, rfl, ?_⟩
  decide

/-- Two managers that are emptied have the same value. -/
theorem emptied_managers_agree :
    (mockAfter rollingHash [.appendSet [], .removeSet]).value =
      (mockAfter rollingHash [.removeSet]).value :=
  (mock_values_agree_iff rollingHash [.appendSet [], .removeSet] [.removeSet] rfl).1.mpr
    (Or.inl (by simp))

end PartyMix
