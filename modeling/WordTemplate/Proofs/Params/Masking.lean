import WordTemplate.Proofs.Params.Recode
import WordTemplate.Proofs.Params.Values
import WordTemplate.Proofs.Placeholder.Masking

/-! Masks over parameters. The braces of all scalar values are hidden, and revealing them gives the
parameters back. Keys are left alone, since a key that leads to a parameter holds no brace. -/

namespace WordTemplate

namespace Param

variable {change : Char → Char}

mutual

theorem keyed_recode {parent : String} {param : Param} (keyed : param.Keyed parent) :
    (param.recode change).Keyed parent := by
  cases param with
  | mk key value kind absoluteKey compactKey level children =>
      obtain ⟨joined, positions, below⟩ := keyed
      refine ⟨joined, fun isList child member => ?_, keyedAll_recodeAll below⟩
      rw [recodeAll_eq] at member
      obtain ⟨origin, listed, rfl⟩ := List.mem_map.mp member
      rw [key_recode]
      exact positions isList origin listed

theorem keyedAll_recodeAll {parent : String} {params : List Param} (keyed : KeyedAll parent params) :
    KeyedAll parent (recodeAll change params) := by
  cases params with
  | nil => trivial
  | cons param rest => exact ⟨keyed_recode keyed.1, keyedAll_recodeAll keyed.2⟩

end

mutual

theorem recode_recode {back : Char → Char} {param : Param}
    (undone : ∀ found ∈ param.withAll, found.isScalar = true →
      (found.value.map change).map back = found.value) :
    (param.recode change).recode back = param := by
  cases param with
  | mk key value kind absoluteKey compactKey level children =>
      have here := undone _ (mem_withAll_self _)
      have below := recodeAll_recodeAll fun found member =>
        undone found (mem_withAll_of_child rfl member)
      simp only [recode, below]
      by_cases scalar : kind = .scalar
      · have same : (value.map change).map back = value := here (decide_eq_true scalar)
        simp only [if_pos scalar, same]
      · simp only [if_neg scalar]

theorem recodeAll_recodeAll {back : Char → Char} {params : List Param}
    (undone : ∀ found ∈ withAllOf params, found.isScalar = true →
      (found.value.map change).map back = found.value) :
    recodeAll back (recodeAll change params) = params := by
  cases params with
  | nil => rfl
  | cons param rest =>
      rw [withAllOf, List.forall_mem_append] at undone
      rw [recodeAll, recodeAll, recode_recode undone.1, recodeAll_recodeAll undone.2]

end

mutual

theorem exists_keyed_of_mem {parent : String} {param found : Param} (keyed : param.Keyed parent)
    (member : found ∈ param.withAll) : ∃ above, found.Keyed above := by
  cases param with
  | mk key value kind absoluteKey compactKey level children =>
      rw [withAll, List.mem_cons] at member
      rcases member with rfl | below
      · exact ⟨parent, keyed⟩
      · exact exists_keyed_of_memAll (keyed_iff.mp keyed).2.2 below

theorem exists_keyed_of_memAll {parent : String} {params : List Param} {found : Param}
    (keyed : KeyedAll parent params) (member : found ∈ withAllOf params) :
    ∃ above, found.Keyed above := by
  cases params with
  | nil => simp [withAllOf] at member
  | cons param rest =>
      rw [withAllOf, List.mem_append] at member
      rcases member with here | later
      · exact exists_keyed_of_mem keyed.1 here
      · exact exists_keyed_of_memAll keyed.2 later

end

end Param

theorem Key.subset_join (parent segment : String) : segment.toList ⊆ (Key.join parent segment).toList := by
  rw [Key.join]
  split
  · exact List.Subset.refl _
  · intro c member
    simp [member]

namespace Params

variable {mask : Mask} {params : Params}

theorem key_subset_of_get? (keyed : params.Keyed) {key : String} {param : Param}
    (looked : params.get? key = some param) : param.key.toList ⊆ key.toList := by
  obtain ⟨above, here⟩ := Param.exists_keyed_of_memAll keyed (mem_all_of_get? looked)
  have joined := (Param.keyed_iff.mp here).1
  rw [← Param.absoluteKey_of_getAmong? looked, joined]
  exact Key.subset_join above param.key

theorem isPosition_of_child (keyed : params.Keyed) {param item : Param} (listed : param ∈ params.all)
    (isList : param.isList = true) (below : item ∈ param.children) :
    Key.isPosition item.key = true := by
  obtain ⟨above, here⟩ := Param.exists_keyed_of_memAll keyed listed
  exact (Param.keyed_iff.mp here).2.1 (by simpa [Param.isList] using isList) item below

/-- Scalar values of parameters in which other characters stand for the braces. -/
structure Masked (mask : Mask) (params : Params) : Prop where
  keyed : params.Keyed
  plain : ∀ param ∈ params.all, param.isScalar = true → WordTemplate.Braceless param.value.toList
  apart : ∀ param ∈ params.all, param.isScalar = true →
    Apart mask.opening (Text.trimEnd param.value.toList)

theorem recode_hide_recode_reveal
    (free : ∀ param ∈ params.all, param.isScalar = true → mask.Free param.value.toList) :
    (params.recode mask.hide).recode mask.reveal = params := by
  have undone := Param.recodeAll_recodeAll fun found member isScalar =>
    Mask.map_reveal_hide (free found member isScalar)
  simp only [recode, undone]

/-- Values whose opening braces are all followed by something else can be masked. -/
theorem masked_recode (keyed : params.Keyed)
    (free : ∀ param ∈ params.all, param.isScalar = true → mask.Free param.value.toList)
    (apart : ∀ param ∈ params.all, param.isScalar = true →
      Apart '{' (Text.trimEnd param.value.toList)) : (params.recode mask.hide).Masked mask := by
  refine ⟨Param.keyedAll_recodeAll keyed, ?_, ?_⟩ <;> intro param member isScalar
  · rw [all_recode] at member
    obtain ⟨origin, listed, rfl⟩ := List.mem_map.mp member
    rw [Param.isScalar_recode] at isScalar
    rw [Param.value_recode, if_pos isScalar, String.toList_map]
    intro c inside
    obtain ⟨former, -, rfl⟩ := List.mem_map.mp inside
    exact Mask.isBrace_hide former
  · rw [all_recode] at member
    obtain ⟨origin, listed, rfl⟩ := List.mem_map.mp member
    rw [Param.isScalar_recode] at isScalar
    rw [Param.value_recode, if_pos isScalar, String.toList_map, mask.disguises_hide.trimEnd]
    refine (apart origin listed isScalar).map fun c inside same => ?_
    have present : c ∈ origin.value.toList := by
      obtain ⟨blanks, whole, -⟩ := Text.exists_trimEnd origin.value.toList
      rw [whole]
      exact List.mem_append_left _ inside
    simp only [Mask.hide] at same
    split at same
    · assumption
    · split at same
      · exact absurd same mask.differ
      · exact absurd same (free origin listed isScalar c present).1

end Params

namespace Mask

variable {mask : Mask}

theorem free_of_isPosition {segment : String} (position : Key.isPosition segment = true) :
    mask.Free segment.toList := by
  refine free_of_not_neutral fun c member neutral => ?_
  simp only [Key.isPosition, Bool.and_eq_true, List.all_eq_true] at position
  have bounds := Char.isDigit_iff_toNat.mp (position.2 c member)
  have small : c.toNat < 128 := by
    have high : '9'.toNat = 57 := rfl
    omega
  have letter : Text.isAlphanumeric c = true := by
    simp [Text.isAlphanumeric, small, Char.isAlphanum, position.2 c member]
  exact Text.not_neutral_of_isAlphanumeric letter neutral

theorem braceless_of_isPosition {segment : String} (position : Key.isPosition segment = true) :
    Braceless segment.toList := by
  simp only [Key.isPosition, Bool.and_eq_true, List.all_eq_true] at position
  exact fun c member => isBrace_of_isDigit (position.2 c member)

theorem free_ofSegments_iff {segments : List String} :
    mask.Free (Key.ofSegments segments).toList ↔ ∀ segment ∈ segments, mask.Free segment.toList := by
  have dot : mask.Free [Key.separator] :=
    free_of_not_neutral (by simp only [List.mem_singleton, forall_eq]; decide +kernel)
  induction segments with
  | nil => simp [Key.ofSegments, Free]
  | cons segment rest ih =>
      cases rest with
      | nil => simp
      | cons next others =>
          rw [Placeholder.toList_ofSegments_cons (by simp), ← List.singleton_append, free_append,
            free_append, List.forall_mem_cons]
          exact and_congr_right fun _ => ⟨fun inner => ih.mp inner.2, fun inner => ⟨dot, ih.mpr inner⟩⟩

theorem free_indexed {params : Params} {key item : String} {pending : PendingList}
    (keyed : params.Keyed) (found : params.pendingList? key = some pending)
    (isKey : Placeholder.IsKey key.toList) (free : mask.Free key.toList)
    (position : Key.isPosition item = true) : mask.Free (pending.indexed item).toList := by
  obtain ⟨first, front, back, cut⟩ := PendingList.exists_cut keyed found
  have start := Placeholder.head?_segments_of_isKey isKey
  rw [cut.segments] at start
  have filled : first ≠ "" := by simpa using start
  rw [← Key.ofSegments_segments key, cut.segments, free_ofSegments_iff] at free
  simp only [List.forall_mem_cons, List.forall_mem_append] at free
  rw [cut.indexed filled, free_ofSegments_iff]
  simp only [List.forall_mem_cons, List.forall_mem_append]
  exact ⟨free.1, free.2.1, free_of_isPosition position,
    fun segment member => free.2.2 segment (PendingList.mem_of_mem_left member)⟩

end Mask

end WordTemplate
