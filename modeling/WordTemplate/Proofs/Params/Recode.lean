import WordTemplate.Params.Lookup

/-! Parameters with all characters of their scalar values changed. Keys lead to the same parameters. -/

namespace WordTemplate

namespace Param

mutual

/-- Changes every character of the scalar values. -/
def recode (change : Char → Char) : Param → Param
  | ⟨key, value, kind, absoluteKey, compactKey, level, children⟩ =>
    ⟨key, if kind = .scalar then value.map change else value, kind, absoluteKey, compactKey, level,
      recodeAll change children⟩

def recodeAll (change : Char → Char) : List Param → List Param
  | [] => []
  | param :: rest => recode change param :: recodeAll change rest

end

end Param

def Match.recode (change : Char → Char) (found : Match) : Match :=
  { found with param := found.param.recode change }

def Numbered.recode (change : Char → Char) (found : Numbered) : Numbered :=
  { found with param := found.param.recode change }

def PendingList.recode (change : Char → Char) (pending : PendingList) : PendingList :=
  { pending with list := pending.list.recode change }

def Params.recode (change : Char → Char) (params : Params) : Params :=
  ⟨Param.recodeAll change params.top⟩

variable {change : Char → Char}

namespace Param

theorem recodeAll_eq (params : List Param) : recodeAll change params = params.map (recode change) := by
  induction params with
  | nil => rfl
  | cons param rest ih => rw [recodeAll, ih, List.map_cons]

theorem recode_eq (param : Param) : param.recode change =
    { param with
      value := if param.isScalar then param.value.map change else param.value
      children := param.children.map (recode change) } := by
  cases param
  simp [recode, recodeAll_eq, isScalar]

@[simp]
theorem key_recode (param : Param) : (param.recode change).key = param.key := by
  rw [recode_eq]

@[simp]
theorem kind_recode (param : Param) : (param.recode change).kind = param.kind := by
  rw [recode_eq]

@[simp]
theorem absoluteKey_recode (param : Param) :
    (param.recode change).absoluteKey = param.absoluteKey := by
  rw [recode_eq]

@[simp]
theorem children_recode (param : Param) :
    (param.recode change).children = param.children.map (recode change) := by
  rw [recode_eq]

@[simp]
theorem isList_recode (param : Param) : (param.recode change).isList = param.isList := by
  rw [isList, isList, kind_recode]

@[simp]
theorem isScalar_recode (param : Param) : (param.recode change).isScalar = param.isScalar := by
  rw [isScalar, isScalar, kind_recode]

theorem value_recode (param : Param) : (param.recode change).value =
    if param.isScalar then param.value.map change else param.value := by
  rw [recode_eq]

theorem isScalar_of_image? {param : Param} (image : param.image?.isSome = true) :
    param.isScalar = false := by
  revert image
  rw [image?, isScalar]
  cases param.kind <;> simp

theorem isResolvedImage_recode (param : Param) :
    (param.recode change).isResolvedImage = param.isResolvedImage := by
  rw [isResolvedImage, isResolvedImage, image?, kind_recode, ← image?, value_recode]
  cases image : param.image?.isSome with
  | false => rfl
  | true => rw [isScalar_of_image? image, if_neg (by decide)]

@[simp]
theorem itemCount_recode (param : Param) : (param.recode change).itemCount = param.itemCount := by
  simp [itemCount]

theorem any_key_recodeAll (name : String) (params : List Param) :
    (recodeAll change params).any (fun child => child.key = name) =
      params.any fun child => child.key = name := by
  rw [recodeAll_eq, List.any_map]
  simp [Function.comp_def]

mutual

theorem depth_recode (param : Param) : (param.recode change).depth = param.depth := by
  cases param with
  | mk key value kind absoluteKey compactKey level children =>
      rw [recode, depth, depth, depthAll_recodeAll]

theorem depthAll_recodeAll (params : List Param) :
    depthAll (recodeAll change params) = depthAll params := by
  cases params with
  | nil => rfl
  | cons param rest => rw [recodeAll, depthAll, depthAll, depth_recode, depthAll_recodeAll]

end

mutual

theorem withAll_recode (param : Param) :
    (param.recode change).withAll = param.withAll.map (recode change) := by
  cases param with
  | mk key value kind absoluteKey compactKey level children =>
      rw [recode, withAll, withAll, withAllOf_recodeAll, List.map_cons, recode]

theorem withAllOf_recodeAll (params : List Param) :
    withAllOf (recodeAll change params) = (withAllOf params).map (recode change) := by
  cases params with
  | nil => rfl
  | cons param rest =>
      rw [recodeAll, withAllOf, withAllOf, withAll_recode, withAllOf_recodeAll, List.map_append]

end

mutual

theorem getAt?_recode (key : String) (param : Param) :
    getAt? key (param.recode change) = (getAt? key param).map (recode change) := by
  cases param with
  | mk name value kind absoluteKey compactKey level children =>
      rw [recode, getAt?, getAt?]
      split
      · rw [Option.map_some, recode]
      · exact getAmong?_recodeAll key children

theorem getAmong?_recodeAll (key : String) (params : List Param) :
    getAmong? key (recodeAll change params) = (getAmong? key params).map (recode change) := by
  cases params with
  | nil => rfl
  | cons param rest =>
      rw [recodeAll, getAmong?, getAmong?, absoluteKey_recode]
      split
      · exact getAt?_recode key param
      · exact getAmong?_recodeAll key rest

end

mutual

theorem matchesAt_recode (route segments : List String) (param : Param) :
    matchesAt route segments (param.recode change) =
      (matchesAt route segments param).map (Match.recode change) := by
  cases param with
  | mk name value kind absoluteKey compactKey level children =>
      cases segments with
      | nil => simp only [recode, matchesAt, List.map_cons, List.map_nil, Match.recode]
      | cons segment rest =>
          rw [recode, matchesAt, matchesAt, any_key_recodeAll, matchesNamed_recodeAll,
            matchesItems_recodeAll, matchesNamed_recodeAll]
          split
          · split
            · rfl
            · rfl
          · rfl

theorem matchesNamed_recodeAll (route : List String) (name : String) (segments : List String)
    (params : List Param) :
    matchesNamed route name segments (recodeAll change params) =
      (matchesNamed route name segments params).map (Match.recode change) := by
  cases params with
  | nil => rfl
  | cons param rest =>
      rw [recodeAll, matchesNamed, matchesNamed, key_recode]
      split
      · exact matchesAt_recode route segments param
      · exact matchesNamed_recodeAll route name segments rest

theorem matchesItems_recodeAll (route segments : List String) (params : List Param) :
    matchesItems route segments (recodeAll change params) =
      (matchesItems route segments params).map (Match.recode change) := by
  cases params with
  | nil => rfl
  | cons param rest =>
      rw [recodeAll, matchesItems, matchesItems, key_recode, matchesAt_recode,
        matchesItems_recodeAll, List.map_append]

end

mutual

theorem pendingAt?_recode (matched : Bool) (segments : List String) (param : Param) :
    pendingAt? matched segments (param.recode change) =
      (pendingAt? matched segments param).map (PendingList.recode change) := by
  cases param with
  | mk name value kind absoluteKey compactKey level children =>
      have sameEmpty : (recodeAll change children).isEmpty = children.isEmpty := by
        rw [recodeAll_eq, List.isEmpty_map]
      cases segments with
      | nil =>
          simp only [recode, pendingAt?, sameEmpty]
          split
          · split
            · simp only [Option.map_some, PendingList.recode, recode]
            · rfl
          · rfl
      | cons segment rest =>
          simp only [recode, pendingAt?, sameEmpty, any_key_recodeAll, pendingAmong?_recodeAll]
          split
          · split
            · simp only [Option.map_some, PendingList.recode, recode]
            · rfl
          · rfl

theorem pendingAmong?_recodeAll (matched : Bool) (name : String) (segments : List String)
    (params : List Param) :
    pendingAmong? matched name segments (recodeAll change params) =
      (pendingAmong? matched name segments params).map (PendingList.recode change) := by
  cases params with
  | nil => rfl
  | cons param rest =>
      rw [recodeAll, pendingAmong?, pendingAmong?, key_recode]
      split
      · exact pendingAt?_recode matched segments param
      · exact pendingAmong?_recodeAll matched name segments rest

end

end Param

namespace Params

variable (params : Params)

@[simp]
theorem depth_recode : (params.recode change).depth = params.depth :=
  Param.depthAll_recodeAll params.top

theorem all_recode : (params.recode change).all = params.all.map (Param.recode change) :=
  Param.withAllOf_recodeAll params.top

theorem get?_recode (key : String) :
    (params.recode change).get? key = (params.get? key).map (Param.recode change) :=
  Param.getAmong?_recodeAll key params.top

theorem matching_recode (key : String) :
    (params.recode change).matching key = (params.matching key).map (Match.recode change) := by
  simp only [matching]
  split
  · rfl
  · exact Param.matchesNamed_recodeAll [] _ _ params.top

theorem resolve_recode (key : String) :
    (params.recode change).resolve key = (params.resolve key).map (Param.recode change) := by
  rw [resolve, resolve, matching_recode, List.map_map, List.map_map]
  rfl

theorem pendingList?_recode (key : String) :
    (params.recode change).pendingList? key =
      (params.pendingList? key).map (PendingList.recode change) := by
  simp only [pendingList?, resolve_recode, List.isEmpty_map]
  split
  · rfl
  · exact Param.pendingAmong?_recodeAll _ _ _ params.top

theorem numberFrom_recode (numbering : Numbering) (found : List Match) :
    numberFrom numbering (found.map (Match.recode change)) =
      (numberFrom numbering found).map (Numbered.recode change) := by
  induction found generalizing numbering with
  | nil => rfl
  | cons first rest ih =>
      simp only [List.map_cons, numberFrom, ih, Match.recode, Numbered.recode]

theorem findAll_recode (key : String) :
    (params.recode change).findAll key = (params.findAll key).map (Numbered.recode change) := by
  rw [findAll, findAll, matching_recode, numberFrom_recode]

end Params

end WordTemplate
