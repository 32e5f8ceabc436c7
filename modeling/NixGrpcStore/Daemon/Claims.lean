import Mathlib.Data.List.Basic
import Mathlib.Data.Rat.Defs
import Mathlib.Tactic.Common

/-!
# Claims of a token

`lookupClaim` of the daemon's `oidc.hh`: a dotted name reaches into nested objects, and at each level
the longest literal key wins.  The search over the dots runs backwards and starts again at every level.
-/

namespace NixGrpcStore.Oidc

abbrev Bytes := List UInt8

/-- A JSON value; of two members of one name an object finds the first. -/
inductive Json where
  | null
  | boolean (value : Bool)
  | number (value : ℚ)
  | string (value : Bytes)
  | array (items : List Json)
  | object (members : List (Bytes × Json))

/-- The byte `.`. -/
def dot : UInt8 := 46

/-- `name.rfind('.', pos)`. -/
def rfind (name : Bytes) : ℕ → Option ℕ
  | 0 => if name[0]? = some dot then some 0 else none
  | pos + 1 => if name[pos + 1]? = some dot then some (pos + 1) else rfind name pos

theorem rfind_le {name : Bytes} {pos cut : ℕ} (found : rfind name pos = some cut) :
    cut ≤ pos ∧ name[cut]? = some dot := by
  induction pos with
  | zero =>
    rw [rfind] at found
    split_ifs at found with here
    cases found
    exact ⟨le_rfl, here⟩
  | succ pos ih =>
    rw [rfind] at found
    split_ifs at found with here
    · cases found
      exact ⟨le_rfl, here⟩
    · exact ⟨(ih found).1.trans pos.le_succ, (ih found).2⟩

theorem le_rfind {name : Bytes} {pos other : ℕ} (le : other ≤ pos) (at_dot : name[other]? = some dot) :
    ∃ cut, rfind name pos = some cut ∧ other ≤ cut := by
  induction pos with
  | zero => simp_all [rfind]
  | succ pos ih =>
    rw [rfind]
    split_ifs with here
    · exact ⟨_, rfl, le⟩
    · rcases Nat.le_or_eq_of_le_succ le with le | rfl
      · exact ih le
      · exact absurd at_dot here

/-- The inner loop of `lookupClaim`: the longest prefix up to `cut` that is a key. -/
def longestKey (members : List (Bytes × Json)) (name : Bytes) (cut : ℕ) : Option (ℕ × Json) :=
  match members.lookup (name.take cut) with
  | some found => some (cut, found)
  | none =>
    if _more : cut = 0 then
      none
    else
      match _found : rfind name (cut - 1) with
      | none => none
      | some earlier => longestKey members name earlier
termination_by cut
decreasing_by exact Nat.lt_of_le_pred (Nat.pos_of_ne_zero _more) (rfind_le _found).1

/-- The value that a dotted name reaches. -/
def lookupClaim (claims : Json) (name : Bytes) : Option Json :=
  match claims with
  | .object members =>
    if name = [] then
      none
    else
      match longestKey members name name.length with
      | none => none
      | some (dot, found) =>
        if dot = name.length then some found else lookupClaim found (name.drop (dot + 1))
  | _ => none
termination_by name.length
decreasing_by
  have := List.length_pos_iff.mpr ‹_›
  rw [List.length_drop]
  omega

/-- A prefix of the name that ends at a dot or at the end of the name. -/
structure Segment (name key : Bytes) : Prop where
  isPrefix : key <+: name
  ends : key.length = name.length ∨ name[key.length]? = some dot

/-- The longest segment of the name that is a key, and the value it leads to. -/
structure Longest (members : List (Bytes × Json)) (name key : Bytes) (value : Json) : Prop where
  segment : Segment name key
  lookup_eq : members.lookup key = some value
  longest : ∀ other, Segment name other → (members.lookup other).isSome → other.length ≤ key.length

/-- From a value, each key is the longest of the name that is left; every level is an object. -/
inductive Follows : Json → List Bytes → Json → Prop where
  | last {members : List (Bytes × Json)} {key : Bytes} {value : Json}
      (longest : Longest members key key value) : Follows (.object members) [key] value
  | step {members : List (Bytes × Json)} {key : Bytes} {keys : List Bytes} {found value : Json}
      (longest : Longest members ([dot].intercalate (key :: keys)) key found)
      (rest : Follows found keys value) : Follows (.object members) (key :: keys) value

section

variable {members : List (Bytes × Json)} {name key : Bytes} {value : Json}

theorem segment_take {cut : ℕ} (le : cut ≤ name.length)
    (ends : cut = name.length ∨ name[cut]? = some dot) : Segment name (name.take cut) := by
  refine ⟨List.take_prefix cut name, ?_⟩
  rwa [List.length_take, min_eq_left le]

-- the loop stops at a key, and passes over no other
theorem longestKey_spec {cut : ℕ} (le : cut ≤ name.length) (ends : cut = name.length ∨ name[cut]? = some dot) :
    (∀ found ∈ longestKey members name cut, Segment name (name.take found.1) ∧ found.1 ≤ name.length ∧
      members.lookup (name.take found.1) = some found.2) ∧
    ∀ other, Segment name other → other.length ≤ cut → (members.lookup other).isSome →
      ∃ found ∈ longestKey members name cut, other.length ≤ found.1 := by
  induction cut using Nat.strong_induction_on with
  | h cut ih =>
    rw [longestKey]
    split
    · next value found =>
        refine ⟨?_, fun other _ other_le _ => ⟨_, rfl, other_le⟩⟩
        rintro _ ⟨⟩
        exact ⟨segment_take le ends, le, found⟩
    · next missing =>
        -- a segment that is a key is not the one just looked up in vain
        have shorter : ∀ other, Segment name other → other.length ≤ cut → (members.lookup other).isSome →
            other.length < cut ∧ name[other.length]? = some dot := by
          intro other segment other_le has
          have other_ne : other.length ≠ cut := by
            intro same
            rw [← same, ← List.prefix_iff_eq_take.mp segment.isPrefix] at missing
            simp [missing] at has
          exact ⟨by omega, segment.ends.resolve_left (by omega)⟩
        split_ifs with more
        · refine ⟨nofun, fun other segment other_le has => ?_⟩
          have := (shorter other segment other_le has).1
          omega
        · split
          · next none_eq =>
              refine ⟨nofun, fun other segment other_le has => ?_⟩
              obtain ⟨lt, at_dot⟩ := shorter other segment other_le has
              obtain ⟨cut, found, -⟩ := le_rfind (Nat.le_sub_one_of_lt lt) at_dot
              cases none_eq.symm.trans found
          · next earlier found =>
              obtain ⟨before, at_earlier⟩ := rfind_le found
              obtain ⟨sound, complete⟩ := ih earlier (by omega) (by omega) (.inr at_earlier)
              refine ⟨sound, fun other segment other_le has => ?_⟩
              obtain ⟨lt, at_dot⟩ := shorter other segment other_le has
              obtain ⟨cut, found', le_cut⟩ := le_rfind (Nat.le_sub_one_of_lt lt) at_dot
              cases found.symm.trans found'
              exact complete other segment le_cut has

theorem longest_iff : Longest members name key value ↔
    key <+: name ∧ longestKey members name name.length = some (key.length, value) := by
  obtain ⟨sound, complete⟩ := @longestKey_spec members name _ le_rfl (.inl rfl)
  constructor
  · intro longest
    obtain ⟨⟨cut, found⟩, found_eq, le_cut⟩ := complete key longest.segment longest.segment.isPrefix.length_le
      (by rw [longest.lookup_eq]; rfl)
    obtain ⟨segment, cut_le, lookup_eq⟩ := sound _ found_eq
    have cut_le_key := longest.longest _ segment (by rw [lookup_eq]; rfl)
    rw [List.length_take, min_eq_left cut_le] at cut_le_key
    obtain rfl : cut = key.length := le_antisymm cut_le_key le_cut
    rw [← List.prefix_iff_eq_take.mp longest.segment.isPrefix, longest.lookup_eq] at lookup_eq
    cases lookup_eq
    exact ⟨longest.segment.isPrefix, found_eq⟩
  · rintro ⟨isPrefix, found_eq⟩
    obtain ⟨segment, -, lookup_eq⟩ := sound _ found_eq
    rw [← List.prefix_iff_eq_take.mp isPrefix] at segment lookup_eq
    refine ⟨segment, lookup_eq, fun other is_segment has => ?_⟩
    obtain ⟨found, found_eq', le⟩ := complete other is_segment is_segment.isPrefix.length_le has
    cases found_eq.symm.trans found_eq'
    exact le

theorem intercalate_cons {keys : List Bytes} (more : keys ≠ []) :
    [dot].intercalate (key :: keys) = key ++ dot :: [dot].intercalate keys := by
  obtain ⟨next, keys, rfl⟩ := List.exists_cons_of_ne_nil more
  simp [List.intercalate]

theorem Follows.ne_nil {claims : Json} {keys : List Bytes} (follows : Follows claims keys value) :
    keys ≠ [] := by
  cases follows with
  | last => exact List.cons_ne_nil _ _
  | step => exact List.cons_ne_nil _ _

/-- Claim lookup follows the longest literal key at every level, and never a shorter one. -/
theorem lookupClaim_eq_some_iff (claims : Json) (name : Bytes) (value : Json) :
    lookupClaim claims name = some value ↔
      ∃ keys, [dot].intercalate keys = name ∧ keys.getLast? ≠ some [] ∧ Follows claims keys value := by
  constructor
  · intro reached
    induction length : name.length using Nat.strong_induction_on generalizing claims name with
    | h _ ih =>
      cases claims with
      | object members =>
        rw [lookupClaim] at reached
        split_ifs at reached with empty
        split at reached
        · cases reached
        · next cut found found_eq =>
            obtain ⟨segment, le, -⟩ := (longestKey_spec le_rfl (.inl rfl)).1 _ found_eq
            have longest : Longest members name (name.take cut) found := by
              rw [longest_iff, List.length_take, min_eq_left le]
              exact ⟨segment.isPrefix, found_eq⟩
            split_ifs at reached with whole
            · cases reached
              rw [whole, List.take_length] at longest
              exact ⟨[name], by simp [List.intercalate], by simpa using empty, .last longest⟩
            · have at_cut := segment.ends
              rw [List.length_take, min_eq_left le] at at_cut
              obtain ⟨lt, at_cut⟩ := List.getElem?_eq_some_iff.mp (at_cut.resolve_left whole)
              obtain ⟨keys, joined, full, follows⟩ := ih _ (by rw [List.length_drop]; omega) _ _ reached rfl
              have joined_eq : [dot].intercalate (name.take cut :: keys) = name := by
                rw [intercalate_cons follows.ne_nil, joined, ← at_cut, List.getElem_cons_drop,
                  List.take_append_drop]
              refine ⟨name.take cut :: keys, joined_eq, ?_, .step (by rwa [joined_eq]) follows⟩
              rwa [List.getLast?_cons_of_ne_nil follows.ne_nil]
      | _ => simp [lookupClaim] at reached
  · rintro ⟨keys, rfl, full, follows⟩
    induction follows with
    | @last members key value longest =>
      have whole : [dot].intercalate [key] = key := by simp [List.intercalate]
      rw [whole, lookupClaim, if_neg (by simpa using full), (longest_iff.mp longest).2]
      simp
    | @step members key keys found value longest rest ih =>
      rw [List.getLast?_cons_of_ne_nil rest.ne_nil] at full
      have found_eq := (longest_iff.mp longest).2
      rw [intercalate_cons rest.ne_nil] at found_eq ⊢
      rw [lookupClaim, if_neg (by simp), found_eq]
      simp [ih full]

end
end NixGrpcStore.Oidc
