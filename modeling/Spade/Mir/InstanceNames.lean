import Mathlib.Data.List.Nodup
import Mathlib.Logic.Function.Basic

/-!
# The names of instances

`InstanceNameTracker` and `InstanceMap` of `spade-mir/src/unit_name.rs`: the names that the
instances in one Verilog module get, and the record of which unit every one of them instantiates.

* **Injectivity** (`numbered_inj`): a numbered name determines the requested name and the number,
  whatever the requested name ends in.
* **One unit** (`useNames_spec`): the names of the instances in one unit are distinct, and the map
  leads from each of them to the unit it instantiates.
* **All units** (`instantiateAll_lookup`): so it is for every unit when they are generated one after
  the other.
-/

namespace Spade.Mir

/-! ### Numbered names -/

/-- `format!("{instance_name}_{e}")`. -/
def numbered (instanceName : String) (e : ℕ) : String := instanceName ++ "_" ++ toString e

/-- Where a letter stands for the last time is determined by the list. -/
theorem append_cons_inj {α : Type*} {a : α} {l₁ l₂ r₁ r₂ : List α} (h₁ : a ∉ r₁) (h₂ : a ∉ r₂)
    (h : l₁ ++ a :: r₁ = l₂ ++ a :: r₂) : l₁ = l₂ ∧ r₁ = r₂ := by
  rcases List.append_eq_append_iff.mp h with ⟨m, hl, hr⟩ | ⟨m, hl, hr⟩
  · rcases m with _ | ⟨b, m⟩
    · exact ⟨by simpa using hl.symm, (List.cons.inj hr).2⟩
    · obtain ⟨rfl, rfl⟩ := List.cons.inj hr
      exact absurd (by simp) h₁
  · rcases m with _ | ⟨b, m⟩
    · exact ⟨by simpa using hl, (List.cons.inj hr).2.symm⟩
    · obtain ⟨rfl, rfl⟩ := List.cons.inj hr
      exact absurd (by simp) h₂

/-- **Injectivity.** The digits have no underscore, so the last underscore ends the requested
name. -/
theorem numbered_inj {name name' : String} {e e' : ℕ} (h : numbered name e = numbered name' e') :
    name = name' ∧ e = e' := by
  have hlist : name.toList ++ '_' :: Nat.toDigits 10 e =
      name'.toList ++ '_' :: Nat.toDigits 10 e' := by
    simpa [numbered, Nat.toString_eq_ofList_toDigits] using congrArg String.toList h
  obtain ⟨hname, hdigits⟩ :=
    append_cons_inj Nat.underscore_not_in_toDigits Nat.underscore_not_in_toDigits hlist
  have he := congrArg (fun digits => Nat.ofDigitChars 10 digits 0) hdigits
  exact ⟨String.toList_inj.mp hname, by simpa using he⟩

/-! ### The tracker and the map -/

variable {ν : Type} [DecidableEq ν]

/-- `InstanceNameTracker`. -/
structure InstanceNameTracker where
  previousNames : String → Option ℕ

/-- `InstanceMap`, over the identifiers of units. -/
structure InstanceMap (ν : Type) where
  inner : ν → Option (String → Option ν)

def InstanceNameTracker.new : InstanceNameTracker where
  previousNames := fun _ => none

def InstanceMap.new : InstanceMap ν where
  inner := fun _ => none

/-- How often a name has been requested. -/
def InstanceNameTracker.count (names : InstanceNameTracker) (instanceName : String) : ℕ :=
  (names.previousNames instanceName).getD 0

/-- The tracker after one more use of a name. -/
def InstanceNameTracker.used (names : InstanceNameTracker) (instanceName : String) :
    InstanceNameTracker where
  previousNames :=
    Function.update names.previousNames instanceName (some (names.count instanceName + 1))

/-- The unit that the instance `name` in `inUnit` instantiates. -/
def InstanceMap.lookup (map : InstanceMap ν) (inUnit : ν) (name : String) : Option ν := do
  (← map.inner inUnit) name

/-- Adds an instance to the entry of `inUnit`. -/
def InstanceMap.insert (map : InstanceMap ν) (inUnit : ν) (name : String) (unitName : ν) :
    InstanceMap ν where
  inner :=
    let instances := (map.inner inUnit).getD fun _ => none
    Function.update map.inner inUnit (some (Function.update instances name (some unitName)))

/-- `InstanceNameTracker::use_name`. The counters are unbounded here: every use leaves a string in
the map, so a `usize` does not overflow. -/
def InstanceNameTracker.useName (names : InstanceNameTracker) (unitName : ν) (instanceName : String)
    (inUnit : ν) (map : InstanceMap ν) : String × InstanceNameTracker × InstanceMap ν :=
  let e := names.count instanceName
  let result := numbered instanceName e
  (result, names.used instanceName, map.insert inUnit result unitName)

/-- `UnitNameKind`. -/
inductive UnitNameKind where
  | unescaped (name : String)
  | escaped (name : String) (path : List String)

/-- `UnitName`. -/
structure UnitName (ν : Type) where
  kind : UnitNameKind
  source : ν

/-- `UnitName::as_verilog`. -/
def UnitNameKind.asVerilog : UnitNameKind → String
  | .unescaped name => name
  | .escaped name _ => "\\" ++ name ++ " "

/-- `UnitName::without_escapes`. -/
def UnitNameKind.withoutEscapes : UnitNameKind → String
  | .unescaped name => name
  | .escaped name _ => name

/-- The name `UnitName::instance_name` asks for. -/
def UnitNameKind.requested : UnitNameKind → String
  | .unescaped name => name
  | .escaped name path => path.getLastD name

/-- `UnitName::instance_name`. -/
def UnitName.instanceName (unit : UnitName ν) (inside : ν) (instanceMap : InstanceMap ν)
    (names : InstanceNameTracker) : String × InstanceNameTracker × InstanceMap ν :=
  names.useName unit.source unit.kind.requested inside instanceMap

/-! ### One use -/

theorem InstanceNameTracker.count_used (names : InstanceNameTracker) (instanceName name : String) :
    (names.used instanceName).count name =
      names.count name + if name = instanceName then 1 else 0 := by
  by_cases h : name = instanceName
  · subst h
    simp [used, count]
  · simp [used, count, h]

namespace InstanceMap

variable {map : InstanceMap ν} {inUnit unitName : ν} {name : String}

theorem lookup_insert_self :
    (map.insert inUnit name unitName).lookup inUnit name = some unitName := by
  simp [lookup, insert]

theorem lookup_insert_of_ne_name {name' : String} (h : name' ≠ name) :
    (map.insert inUnit name unitName).lookup inUnit name' = map.lookup inUnit name' := by
  cases hmap : map.inner inUnit <;> simp [lookup, insert, h, hmap]

theorem lookup_insert_of_ne_unit {inUnit' : ν} (h : inUnit' ≠ inUnit) (name' : String) :
    (map.insert inUnit name unitName).lookup inUnit' name' = map.lookup inUnit' name' := by
  simp [lookup, insert, h]

omit [DecidableEq ν] in
@[simp] theorem lookup_new : (new : InstanceMap ν).lookup inUnit name = none := rfl

end InstanceMap

/-! ### The uses in one unit -/

/-- A call of `use_name`: the unit to be instantiated and the requested name. -/
structure Use (ν : Type) where
  unitName : ν
  instanceName : String

def UnitName.use (unit : UnitName ν) : Use ν := ⟨unit.source, unit.kind.requested⟩

theorem UnitName.instanceName_eq_useName (unit : UnitName ν) (inside : ν) (map : InstanceMap ν)
    (names : InstanceNameTracker) :
    unit.instanceName inside map names =
      names.useName unit.use.unitName unit.use.instanceName inside map := rfl

/-- The calls of `use_name` in one unit, in order, with the names they return. -/
def useNames (inUnit : ν) : InstanceNameTracker → InstanceMap ν → List (Use ν) →
    List String × InstanceMap ν
  | _, map, [] => ([], map)
  | names, map, use :: uses =>
      let (result, names, map) := names.useName use.unitName use.instanceName inUnit map
      let (results, map) := useNames inUnit names map uses
      (result :: results, map)

variable {inUnit : ν} {names : InstanceNameTracker} {map : InstanceMap ν}

/-- Every returned name is numbered with at least the number of uses so far. -/
theorem exists_of_mem_useNames {uses : List (Use ν)} {result : String}
    (h : result ∈ (useNames inUnit names map uses).1) :
    ∃ name e, result = numbered name e ∧ names.count name ≤ e := by
  induction uses generalizing names map with
  | nil => exact absurd h List.not_mem_nil
  | cons use uses ih =>
      rcases List.mem_cons.mp h with rfl | htail
      · exact ⟨use.instanceName, _, rfl, Nat.le_refl _⟩
      · obtain ⟨name, e, hresult, hle⟩ := ih htail
        rw [InstanceNameTracker.count_used] at hle
        exact ⟨name, e, hresult, by omega⟩

/-- What a use returns is not returned again. -/
theorem useName_not_mem_useNames (instanceName : String) (uses : List (Use ν))
    (map : InstanceMap ν) :
    numbered instanceName (names.count instanceName) ∉
      (useNames inUnit (names.used instanceName) map uses).1 := by
  intro hmem
  obtain ⟨name, e, hresult, hle⟩ := exists_of_mem_useNames hmem
  obtain ⟨rfl, rfl⟩ := numbered_inj hresult
  rw [InstanceNameTracker.count_used, if_pos rfl] at hle
  omega

theorem useNames_length (uses : List (Use ν)) :
    (useNames inUnit names map uses).1.length = uses.length := by
  induction uses generalizing names map with
  | nil => rfl
  | cons use uses ih => exact congrArg Nat.succ ih

theorem useNames_nodup (uses : List (Use ν)) : (useNames inUnit names map uses).1.Nodup := by
  induction uses generalizing names map with
  | nil => exact List.nodup_nil
  | cons use uses ih =>
      exact List.nodup_cons.mpr ⟨useName_not_mem_useNames use.instanceName uses _, ih⟩

/-- The uses in a unit leave the other units, and the other names in it, as they are. -/
theorem lookup_useNames_of_not_mem {uses : List (Use ν)} {unit : ν} {name : String}
    (h : unit = inUnit → name ∉ (useNames inUnit names map uses).1) :
    (useNames inUnit names map uses).2.lookup unit name = map.lookup unit name := by
  induction uses generalizing names map with
  | nil => rfl
  | cons use uses ih =>
      refine (ih fun hunit hmem => h hunit (List.mem_cons_of_mem _ hmem)).trans ?_
      by_cases hunit : unit = inUnit
      · subst hunit
        exact InstanceMap.lookup_insert_of_ne_name fun hname =>
          h rfl (List.mem_cons.mpr (.inl hname))
      · exact InstanceMap.lookup_insert_of_ne_unit hunit name

/-- Every returned name leads to the unit instantiated by the call. -/
theorem lookup_useNames (uses : List (Use ν)) :
    List.Forall₂ (fun use result =>
      (useNames inUnit names map uses).2.lookup inUnit result = some use.unitName)
      uses (useNames inUnit names map uses).1 := by
  induction uses generalizing names map with
  | nil => exact .nil
  | cons use uses ih =>
      refine .cons ?_ ih
      exact (lookup_useNames_of_not_mem fun _ => useName_not_mem_useNames _ uses _).trans
        InstanceMap.lookup_insert_self

/-- **One unit.** Whatever the map is before, the names returned in one unit are distinct, and the
map leads from exactly the names returned to the units instantiated, call by call. -/
theorem useNames_spec (inUnit : ν) (map : InstanceMap ν) (uses : List (Use ν)) :
    let (results, map') := useNames inUnit .new map uses
    results.Nodup ∧
      List.Forall₂ (fun use result => map'.lookup inUnit result = some use.unitName)
        uses results ∧
      (∀ name ∉ results, map'.lookup inUnit name = map.lookup inUnit name) ∧
      ∀ unit ≠ inUnit, ∀ name, map'.lookup unit name = map.lookup unit name :=
  ⟨useNames_nodup uses, lookup_useNames uses,
    fun _ hname => lookup_useNames_of_not_mem fun _ => hname,
    fun _ hunit _ => lookup_useNames_of_not_mem fun heq => absurd heq hunit⟩

/-! ### All units -/

/-- A unit with the units it instantiates, in order. -/
structure Instances (ν : Type) where
  inside : ν
  units : List (UnitName ν)

/-- The statements of one unit after the other, each unit with a tracker of its own. -/
def instantiateAll (map : InstanceMap ν) : List (Instances ν) → InstanceMap ν
  | [] => map
  | unit :: units =>
      instantiateAll (useNames unit.inside .new map (unit.units.map UnitName.use)).2 units

/-- The names of the instances in a unit, which do not depend on the map. -/
def instanceNames (unit : Instances ν) : List String :=
  (useNames unit.inside .new .new (unit.units.map UnitName.use)).1

theorem useNames_fst (map map' : InstanceMap ν) (uses : List (Use ν)) :
    (useNames inUnit names map uses).1 = (useNames inUnit names map' uses).1 := by
  induction uses generalizing names map map' with
  | nil => rfl
  | cons use uses ih => exact congrArg (_ :: ·) (ih _ _)

theorem lookup_instantiateAll_of_not_mem {units : List (Instances ν)} {inside : ν}
    (h : ∀ unit ∈ units, unit.inside ≠ inside) (name : String) :
    (instantiateAll map units).lookup inside name = map.lookup inside name := by
  induction units generalizing map with
  | nil => rfl
  | cons unit units ih =>
      refine (ih fun u hu => h u (List.mem_cons_of_mem _ hu)).trans ?_
      exact lookup_useNames_of_not_mem fun heq => absurd heq.symm (h unit List.mem_cons_self)

/-- **All units.** When different units are generated one after the other, the map leads from every
instance of every unit to the unit it instantiates. -/
theorem instantiateAll_lookup {units : List (Instances ν)}
    (hunits : (units.map Instances.inside).Nodup) {unit : Instances ν} (hmem : unit ∈ units) :
    List.Forall₂ (fun (instantiated : UnitName ν) name =>
      (instantiateAll map units).lookup unit.inside name = some instantiated.source)
      unit.units (instanceNames unit) := by
  induction units generalizing map with
  | nil => exact absurd hmem List.not_mem_nil
  | cons head units ih =>
      obtain ⟨hhead, htail⟩ := List.nodup_cons.mp hunits
      rcases List.mem_cons.mp hmem with rfl | hmem
      · have hlookup := @lookup_useNames _ _ unit.inside .new map (unit.units.map UnitName.use)
        rw [useNames_fst map .new, List.forall₂_map_left_iff] at hlookup
        refine hlookup.imp fun instantiated name hname => ?_
        rw [instantiateAll]
        refine (lookup_instantiateAll_of_not_mem (fun u hu heq => hhead ?_) name).trans hname
        exact heq ▸ List.mem_map_of_mem hu
      · exact ih htail hmem

example : (useNames 0 .new .new [⟨1, "x"⟩, ⟨2, "x_0"⟩, ⟨3, "x"⟩]).1 = ["x_0", "x_0_0", "x_1"] := by
  decide

end Spade.Mir
