import Haive.Lib.Text

/-!
# Names of an install

`shared/src/naming/index.ts`: every container, volume and database name starts with the
install's id and a separator, and the filters of the reapers are such prefixes. Volumes
and databases are joined by `_`, which an id may hold too; so one install's filters
leave another's names alone exactly if neither id is the other followed by `_`
(`filters_separate_iff`).
-/

namespace Haive.Naming

open Lib

/-! ## Ids -/

def DEFAULT_INSTALL_ID : String := "haive"

def isIdHead (c : Char) : Bool := ('a' ≤ c && c ≤ 'z') || ('0' ≤ c && c ≤ '9')

/-- `INSTALL_ID_PATTERN`: `/^[a-z0-9][a-z0-9_]{0,31}$/`. -/
def matchesPattern (id : String) : Bool :=
  match id.toList with
  | [] => false
  | c :: cs => isIdHead c && cs.all (fun c => isIdHead c || c = '_') && cs.length ≤ 31

/-- An id that `installId` returns. -/
structure InstallId where
  text : String
  valid : matchesPattern text = true
deriving DecidableEq

/-- The value that is refused, as it was read. -/
structure InvalidInstallIdError where
  value : String
deriving DecidableEq

/-- `installId`, of the variable `HAIVE_INSTALL_ID`. -/
def installId (raw : Option String) : Except InvalidInstallIdError InstallId :=
  match raw with
  | none => .ok ⟨DEFAULT_INSTALL_ID, by decide⟩
  | some raw =>
    if raw = "" then .ok ⟨DEFAULT_INSTALL_ID, by decide⟩
    else if h : matchesPattern (trim raw) = true then .ok ⟨trim raw, h⟩
    else .error ⟨raw⟩

/-! ## Names and prefixes -/

def dashPrefix (id : InstallId) : String := id.text ++ "-"

def underscorePrefix (id : InstallId) : String := id.text ++ "_"

inductive ContainerFamily
  | cli | shell | ddev | ide | login | egress | squid | app | upgrade | moduleSource
deriving DecidableEq, Repr

/-- `CONTAINER_FAMILY`. -/
def ContainerFamily.text : ContainerFamily → String
  | .cli => "cli"
  | .shell => "shell"
  | .ddev => "ddev"
  | .ide => "ide"
  | .login => "login"
  | .egress => "egress"
  | .squid => "squid"
  | .app => "app"
  | .upgrade => "upgrade"
  | .moduleSource => "module-source"

def containerName (id : InstallId) (family : ContainerFamily) (parts : List String) : String :=
  dashPrefix id ++ (family.text ++ if parts.isEmpty then "" else "-" ++ "-".intercalate parts)

def containerPrefix (id : InstallId) (family : ContainerFamily) : String := dashPrefix id ++ (family.text ++ "-")

def isContainerOf (id : InstallId) (family : ContainerFamily) (name : String) : Bool :=
  startsWith name (containerPrefix id family)

def installContainerPrefix (id : InstallId) : String := dashPrefix id

def volumeName (id : InstallId) (parts : List String) : String := underscorePrefix id ++ "_".intercalate parts

def volumePrefix (id : InstallId) (family : String) : String := underscorePrefix id ++ (family ++ "_")

def isVolumeOf (id : InstallId) (family name : String) : Bool := startsWith name (volumePrefix id family)

def databaseName (id : InstallId) (parts : List String) : String := underscorePrefix id ++ "_".intercalate parts

def databasePrefix (id : InstallId) (family : String) : String := underscorePrefix id ++ (family ++ "_")

/-- What an install names. -/
inductive Resource
  | container (family : ContainerFamily) (parts : List String)
  | volume (parts : List String)
  | database (parts : List String)

def Resource.name (id : InstallId) : Resource → String
  | .container family parts => containerName id family parts
  | .volume parts => volumeName id parts
  | .database parts => databaseName id parts

/-- What an install's sweeps test a name with. -/
inductive Filter
  | containerOf (family : ContainerFamily)
  | volumeOf (family : String)
  | startsWithContainer (family : ContainerFamily)
  | startsWithInstall
  | startsWithVolume (family : String)
  | startsWithDatabase (family : String)

def Filter.accepts (id : InstallId) (name : String) : Filter → Bool
  | .containerOf family => isContainerOf id family name
  | .volumeOf family => isVolumeOf id family name
  | .startsWithContainer family => startsWith name (containerPrefix id family)
  | .startsWithInstall => startsWith name (installContainerPrefix id)
  | .startsWithVolume family => startsWith name (volumePrefix id family)
  | .startsWithDatabase family => startsWith name (databasePrefix id family)

/-! ## Separation -/

theorem InstallId.no_dash (id : InstallId) : '-' ∉ id.text.toList := by
  have hvalid := id.valid
  rw [matchesPattern] at hvalid
  intro hdash
  cases hchars : id.text.toList with
  | nil =>
    rw [hchars] at hdash
    exact List.not_mem_nil hdash
  | cons c cs =>
    rw [hchars] at hvalid hdash
    rw [Bool.and_eq_true, Bool.and_eq_true, List.all_eq_true] at hvalid
    rcases List.mem_cons.mp hdash with rfl | hdash
    · exact absurd hvalid.1.1 (by decide)
    · exact absurd (hvalid.1.2 _ hdash) (by decide)

theorem InstallId.ext_text {x y : InstallId} (h : x.text = y.text) : x = y := by
  cases x
  cases y
  cases h
  rfl

/-- A separator between an id and what follows it. -/
def IsSeparator (c : Char) : Prop := c = '-' ∨ c = '_'

theorem Resource.name_front (id : InstallId) (r : Resource) :
    ∃ c rest, IsSeparator c ∧ (r.name id).toList = id.text.toList ++ c :: rest := by
  have front : ∀ (sep : String) (c : Char) (rest : String), sep.toList = [c] →
      (id.text ++ sep ++ rest).toList = id.text.toList ++ c :: rest.toList := by
    intro sep c rest hsep
    rw [String.toList_append, String.toList_append, hsep, List.append_assoc, List.singleton_append]
  cases r with
  | container family parts => exact ⟨'-', _, .inl rfl, front "-" '-' _ (by decide)⟩
  | volume parts => exact ⟨'_', _, .inr rfl, front "_" '_' _ (by decide)⟩
  | database parts => exact ⟨'_', _, .inr rfl, front "_" '_' _ (by decide)⟩

theorem Filter.accepts_front {id : InstallId} {name : String} {f : Filter} (h : f.accepts id name = true) :
    ∃ c, IsSeparator c ∧ id.text.toList ++ [c] <+: name.toList := by
  have front : ∀ (sep : String) (c : Char) (rest : String), sep.toList = [c] →
      startsWith name (id.text ++ sep ++ rest) = true → id.text.toList ++ [c] <+: name.toList := by
    intro sep c rest hsep hname
    rw [startsWith_iff, String.toList_append, String.toList_append, hsep] at hname
    exact (List.prefix_append _ _).trans hname
  cases f with
  | containerOf family => exact ⟨'-', .inl rfl, front "-" '-' _ (by decide) h⟩
  | volumeOf family => exact ⟨'_', .inr rfl, front "_" '_' _ (by decide) h⟩
  | startsWithContainer family => exact ⟨'-', .inl rfl, front "-" '-' _ (by decide) h⟩
  | startsWithInstall =>
    refine ⟨'-', .inl rfl, front "-" '-' "" (by decide) ?_⟩
    rwa [String.append_empty]
  | startsWithVolume family => exact ⟨'_', .inr rfl, front "_" '_' _ (by decide) h⟩
  | startsWithDatabase family => exact ⟨'_', .inr rfl, front "_" '_' _ (by decide) h⟩

/-- An id followed by a separator within another id is followed by `_`. -/
theorem underscore_of_front {x y : InstallId} {c : Char} (hc : IsSeparator c)
    (h : x.text.toList ++ [c] <+: y.text.toList) : startsWith y.text (underscorePrefix x) = true := by
  have hunderscore : c = '_' := by
    rcases hc with rfl | rfl
    · exact absurd (h.mem (List.mem_append_right _ (List.mem_singleton_self '-'))) y.no_dash
    · rfl
  rw [startsWith_iff, underscorePrefix, String.toList_append]
  rwa [hunderscore] at h

/-- The filters of `x` leave every name of `y` alone if and only if neither id is the other
followed by `_`. -/
theorem filters_separate_iff (x y : InstallId) (hne : x ≠ y) :
    (∀ (r : Resource) (f : Filter), f.accepts x (r.name y) = false) ↔
      startsWith x.text (underscorePrefix y) = false ∧ startsWith y.text (underscorePrefix x) = false := by
  constructor
  · intro hall
    constructor
    · rw [← Bool.not_eq_true]
      intro hx
      -- `x` is `y_r`: a volume of `y` whose first parts are `r` and `f` is taken for one of `x`'s `f`.
      rw [startsWith_iff] at hx
      obtain ⟨r, hr⟩ := hx
      have hname : (Resource.volume [String.ofList r ++ "_f_1"]).name y = volumePrefix x "f" ++ "1" := by
        refine String.toList_injective ?_
        simp [Resource.name, volumeName, volumePrefix, underscorePrefix, String.toList_append, ← hr]
      have hrefused := hall (.volume [String.ofList r ++ "_f_1"]) (.volumeOf "f")
      rw [hname, Filter.accepts, isVolumeOf, ← Bool.not_eq_true, startsWith_iff, String.toList_append] at hrefused
      exact hrefused (List.prefix_append _ _)
    · rw [← Bool.not_eq_true]
      intro hy
      -- `y` is `x_r`: every volume of `y` is taken for one of `x`'s `r`.
      rw [startsWith_iff] at hy
      obtain ⟨r, hr⟩ := hy
      have hname : (Resource.volume ["1"]).name y = volumePrefix x (String.ofList r) ++ "1" := by
        refine String.toList_injective ?_
        simp [Resource.name, volumeName, volumePrefix, underscorePrefix, String.toList_append, ← hr]
      have hrefused := hall (.volume ["1"]) (.volumeOf (String.ofList r))
      rw [hname, Filter.accepts, isVolumeOf, ← Bool.not_eq_true, startsWith_iff, String.toList_append] at hrefused
      exact hrefused (List.prefix_append _ _)
  · rintro ⟨hx, hy⟩ r f
    rw [← Bool.not_eq_true]
    intro haccepts
    obtain ⟨c, hc, hfilter⟩ := Filter.accepts_front haccepts
    obtain ⟨c', rest, hc', hname⟩ := r.name_front y
    have hfront : y.text.toList ++ [c'] <+: (r.name y).toList := by
      rw [hname]
      exact ⟨rest, by rw [List.append_assoc, List.singleton_append]⟩
    -- Both ids with their separators start the name, so one starts the other.
    rcases List.prefix_or_prefix_of_prefix hfilter hfront with h | h
    · rcases List.prefix_concat_iff.mp h with heq | h
      · exact hne (InstallId.ext_text (String.toList_injective (List.append_singleton_inj.mp heq).1))
      · rw [underscore_of_front hc h] at hy
        cases hy
    · rcases List.prefix_concat_iff.mp h with heq | h
      · exact hne (InstallId.ext_text (String.toList_injective (List.append_singleton_inj.mp heq).1.symm))
      · rw [underscore_of_front hc' h] at hx
        cases hx

namespace Sample

def first : InstallId := ⟨DEFAULT_INSTALL_ID, by decide⟩
def second : InstallId := ⟨"haive_cli_auth", by decide⟩
def other : InstallId := ⟨"other", by decide⟩

end Sample

open Sample in
theorem filters_separate_other : first ≠ other ∧
    ∀ (r : Resource) (f : Filter), f.accepts first (r.name other) = false :=
  ⟨by decide, (filters_separate_iff first other (by decide)).mpr (by decide)⟩

open Sample in
/-- The second install's `repos` is taken for a login volume of the first. -/
theorem repos_taken_for_cli_auth : installId (some "haive_cli_auth") = .ok second ∧ first ≠ second ∧
    (Resource.volume ["repos"]).name second = "haive_cli_auth_repos" ∧
    (Filter.volumeOf "cli_auth").accepts first "haive_cli_auth_repos" = true := by
  decide +kernel

end Haive.Naming
