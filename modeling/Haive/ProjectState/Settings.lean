import Haive.Lib.ListFacts
import Haive.ProjectState.AgentRules
import Haive.ProjectState.Canonical

/-!
# Portable settings

`normalizeSetting` of `shared/src/project-state/settings.ts`. `Normal` says what a setting's normal
form is: every value that is accepted has one, it is its own normal form, and it is read back from its
canonical text with its keys in order (`normalizeSetting_stable`).
-/

namespace Haive.ProjectState

open Lib.Units
open Lib (Json nodup_eraseDups)
open Lib.Json (listed Printable index propertyOrder setField)

/-! ## Settings -/

inductive PortableSettingName
  | scopeExcludeGlobs
  | rtkEnabled
  | rtkVersion
  | lspServers
  | lspServerVersions
  | chromeDevtoolsMcpVersion
  | reviewDimensions
  | agentRules
  | reviewWatermarks

def PORTABLE_SETTING_NAMES : List (String × PortableSettingName) :=
  [("scope-exclude-globs", .scopeExcludeGlobs), ("rtk-enabled", .rtkEnabled), ("rtk-version", .rtkVersion),
    ("lsp-servers", .lspServers), ("lsp-server-versions", .lspServerVersions),
    ("chrome-devtools-mcp-version", .chromeDevtoolsMcpVersion), ("review-dimensions", .reviewDimensions),
    ("agent-rules", .agentRules), ("review-watermarks", .reviewWatermarks)]

inductive SettingCheck
  | ok (value : Json)
  | refused (reason : Option String)

def stringList? (value : Json) : Option (List Text) := value.arr?.bind (·.mapM Json.str?)

def nonEmptyText : Json → Option Text
  | .str s => if trim s ≠ [] then some (trim s) else none
  | _ => none

/-! ## Globs -/

abbrev slash : UInt16 := 0x2f

def trimGlobSlashes (glob : Text) : Text := (glob.dropWhile (· = slash)).rdropWhile (· = slash)

def overlaps (glob dir : Text) : Bool := glob = dir || (dir ++ [slash]) <+: glob || (glob ++ [slash]) <+: dir

def HAIVE_DATA_DIR : Text := units ".haive-data"
def KB_DIR : Text := HAIVE_DATA_DIR ++ units "/knowledge_base"
def LEARNINGS_DIR : Text := HAIVE_DATA_DIR ++ units "/learnings"
def MANAGED_KNOWLEDGE_DIRS : List Text := [KB_DIR, LEARNINGS_DIR]

/-- The filter of `stripManagedKnowledgeGlobs`. -/
def keepsGlob (glob : Text) : Bool :=
  let normalized := trimGlobSlashes glob
  normalized = [] || ! MANAGED_KNOWLEDGE_DIRS.any (overlaps normalized)

def stripManagedKnowledgeGlobs (globs : List Text) : List Text := globs.filter keepsGlob

def codeUnitsBefore (a b : Text) : Prop := a ≤ b

instance : DecidableRel codeUnitsBefore := fun a b => inferInstanceAs (Decidable (a ≤ b))

instance : Std.Total codeUnitsBefore := ⟨List.le_total⟩

instance : IsTrans Text codeUnitsBefore := ⟨fun _ _ _ => List.le_trans⟩

def normalGlobs (globs : List Text) : List Text :=
  (stripManagedKnowledgeGlobs ((globs.map trimGlobSlashes).filter fun g => g ≠ []).eraseDups).insertionSort
    codeUnitsBefore

/-! ## Servers, dimensions and watermarks -/

def LSP_KEY_SET : List Text :=
  ["intelephense-extended", "vtsls", "pyright", "gopls", "rust-analyzer", "solargraph", "jdtls"].map units

def versionMap? : Json → Option JsonFields
  | .obj fields =>
    if fields.all fun field => match field.2 with
      | .null | .str _ => true
      | _ => false
    then some fields else none
  | _ => none

def takeVersion (clean : JsonFields) (entry : Text × Json) : JsonFields :=
  match nonEmptyText entry.2 with
  | some text => if LSP_KEY_SET.contains entry.1 then setField clean entry.1 (.str text) else clean
  | none => clean

def REVIEW_DIMENSIONS : List Text :=
  ["security", "maintainability", "testability", "usability", "stability", "performance", "observability",
    "operational-readiness", "data-integrity", "developer-experience", "accessibility", "internationalization",
    "backward-compatibility", "privacy-compliance"].map units

def normalizeReviewDimensionIds (ids : List Text) : List Text := REVIEW_DIMENSIONS.filter fun id => ids.contains id

def REVIEW_WATERMARK_KEYS : List Text := ["kbSyncedCommit", "planSyncedCommit"].map units

/-- `/^[0-9a-f]{40}$/`. -/
def isCommit (sha : Text) : Bool :=
  sha.length = 40 && sha.all fun u => (0x30 ≤ u && u ≤ 0x39) || (0x61 ≤ u && u ≤ 0x66)

/-- One key of the loop of `reviewWatermarks`. -/
def takeWatermark (fields : JsonFields) (key : Text) : Option (List (Text × Text)) :=
  match fields.lookup key with
  | none | some .null => some []
  | some (.str sha) => if isCommit sha then some [(key, sha)] else none
  | some _ => none

/-- `reviewWatermarks`; `none` is null. -/
def reviewWatermarks : Json → Option Json
  | .obj fields => (REVIEW_WATERMARK_KEYS.mapM (takeWatermark fields)).map fun taken => record taken.flatten
  | _ => none

/-! ## `normalizeSetting` -/

def normalizeAs (name : PortableSettingName) (value : Json) : SettingCheck :=
  match name with
  | .scopeExcludeGlobs =>
    match stringList? value with
    | some globs => .ok (texts (normalGlobs globs))
    | none => .refused none
  | .rtkEnabled =>
    match value with
    | .bool b => .ok (.bool b)
    | _ => .refused none
  | .rtkVersion | .chromeDevtoolsMcpVersion =>
    match nonEmptyText value with
    | some text => .ok (.str text)
    | none => .refused none
  | .lspServers =>
    match stringList? value with
    | some servers => .ok (texts (servers.filter LSP_KEY_SET.contains).eraseDups)
    | none => .refused none
  | .lspServerVersions =>
    match versionMap? value with
    | some fields => .ok (.obj ((propertyOrder fields).foldl takeVersion []))
    | none => .refused none
  | .reviewDimensions =>
    let ids := ((stringList? value).map normalizeReviewDimensionIds).getD []
    if ids = [] then .refused none else .ok (texts ids)
  | .reviewWatermarks =>
    match reviewWatermarks value with
    | some watermarks => .ok watermarks
    | none => .refused none
  | .agentRules =>
    match normalizeAgentRulesOverride value with
    | .ok text => .ok (.str text)
    | .error reason => .refused (some reason)

def normalizeSetting (name : Text) (value : Json) : SettingCheck :=
  match PORTABLE_SETTING_NAMES.find? fun known => units known.1 = name with
  | some known => normalizeAs known.2 value
  | none => .refused none

/-! ## Normal forms -/

def TakenFor (key : Text) (taken : List (Text × Text)) : Prop :=
  taken = [] ∨ ∃ sha, taken = [(key, sha)] ∧ isCommit sha = true

inductive Normal : PortableSettingName → Json → Prop
  | scopeExcludeGlobs {globs : List Text} (hsort : globs.Pairwise codeUnitsBefore) (hnodup : globs.Nodup)
      (h : ∀ g ∈ globs, trimGlobSlashes g = g ∧ g ≠ [] ∧ keepsGlob g = true) : Normal .scopeExcludeGlobs (texts globs)
  | rtkEnabled (b : Bool) : Normal .rtkEnabled (.bool b)
  | rtkVersion {text : Text} (h : nonEmptyText (.str text) = some text) : Normal .rtkVersion (.str text)
  | chromeDevtoolsMcpVersion {text : Text} (h : nonEmptyText (.str text) = some text) :
      Normal .chromeDevtoolsMcpVersion (.str text)
  | lspServers {servers : List Text} (hnodup : servers.Nodup) (h : ∀ s ∈ servers, s ∈ LSP_KEY_SET) :
      Normal .lspServers (texts servers)
  | lspServerVersions {versions : List (Text × Text)} (hnodup : (versions.map Prod.fst).Nodup)
      (h : ∀ v ∈ versions, v.1 ∈ LSP_KEY_SET ∧ nonEmptyText (.str v.2) = some v.2) :
      Normal .lspServerVersions (record versions)
  | reviewDimensions {ids : List Text} (hne : ids ≠ []) (h : normalizeReviewDimensionIds ids = ids) :
      Normal .reviewDimensions (texts ids)
  | agentRules {text : Text} (h : normalizeAgentRulesOverride (.str text) = .ok text) : Normal .agentRules (.str text)
  | reviewWatermarks {taken : List (List (Text × Text))}
      (h : List.Forall₂ TakenFor REVIEW_WATERMARK_KEYS taken) : Normal .reviewWatermarks (record taken.flatten)

theorem stringList?_texts (ts : List Text) : stringList? (texts ts) = some ts := by
  rw [stringList?, texts, Json.arr?, Option.bind_some]
  induction ts with
  | nil => rfl
  | cons t ts ih => rw [List.map_cons, List.mapM_cons, ih]; rfl

/-! ### Trimming -/

theorem trim_twice (p : UInt16 → Bool) (t : Text) :
    (((t.dropWhile p).rdropWhile p).dropWhile p).rdropWhile p = (t.dropWhile p).rdropWhile p := by
  have hfront : ((t.dropWhile p).rdropWhile p).dropWhile p = (t.dropWhile p).rdropWhile p := by
    refine dropWhile_of_head? fun u hu => ?_
    obtain ⟨tail, htail⟩ := List.rdropWhile_prefix p (t.dropWhile p)
    have hhead : (t.dropWhile p).head? = some u := by
      rw [← htail, List.head?_append, hu]
      rfl
    have hnot := List.head?_dropWhile_not p t
    rw [hhead] at hnot
    simpa using hnot
  rw [hfront, List.rdropWhile_idempotent]

theorem nonEmptyText_normal {value : Json} {text : Text} (h : nonEmptyText value = some text) :
    nonEmptyText (.str text) = some text := by
  cases value with
  | str s =>
    rw [nonEmptyText] at h
    split at h
    · next hne =>
      obtain rfl := Option.some.inj h
      have htwice : trim (trim s) = trim s := trim_twice isTrimmed s
      rw [nonEmptyText, htwice, if_pos hne]
    · cases h
  | _ => cases h

/-! ### Lists -/

theorem eraseDups_of_nodup {ts : List Text} (h : ts.Nodup) : ts.eraseDups = ts := by
  induction ts with
  | nil => rfl
  | cons t ts ih =>
    obtain ⟨hnew, hts⟩ := List.nodup_cons.mp h
    have hkeep : ts.filter (fun t' => ! t' == t) = ts := by
      refine List.filter_eq_self.mpr fun t' ht' => ?_
      have hne : t' ≠ t := fun heq => hnew (heq ▸ ht')
      simp [hne]
    rw [List.eraseDups_cons, hkeep, ih hts]

theorem normalGlobs_normal (globs : List Text) : Normal .scopeExcludeGlobs (texts (normalGlobs globs)) := by
  have hperm := List.perm_insertionSort codeUnitsBefore
    (stripManagedKnowledgeGlobs ((globs.map trimGlobSlashes).filter fun g => g ≠ []).eraseDups)
  refine .scopeExcludeGlobs (List.pairwise_insertionSort _ _) ?_ fun g hg => ?_
  · exact hperm.nodup_iff.mpr ((nodup_eraseDups _).filter _)
  · obtain ⟨hmem, hkeep⟩ := List.mem_filter.mp (hperm.mem_iff.mp hg)
    rw [List.mem_eraseDups, List.mem_filter] at hmem
    obtain ⟨raw, -, rfl⟩ := List.mem_map.mp hmem.1
    exact ⟨trim_twice _ raw, of_decide_eq_true hmem.2, hkeep⟩

theorem normalGlobs_of_normal {globs : List Text} (hsort : globs.Pairwise codeUnitsBefore) (hnodup : globs.Nodup)
    (h : ∀ g ∈ globs, trimGlobSlashes g = g ∧ g ≠ [] ∧ keepsGlob g = true) : normalGlobs globs = globs := by
  have htrim : globs.map trimGlobSlashes = globs :=
    (List.map_congr_left fun g hg => (h g hg).1).trans (List.map_id globs)
  have hnonempty : globs.filter (fun g => g ≠ []) = globs :=
    List.filter_eq_self.mpr fun g hg => decide_eq_true (h g hg).2.1
  have hstrip : stripManagedKnowledgeGlobs globs = globs := List.filter_eq_self.mpr fun g hg => (h g hg).2.2
  rw [normalGlobs, htrim, hnonempty, eraseDups_of_nodup hnodup, hstrip, hsort.insertionSort_eq]

theorem normalizeReviewDimensionIds_twice (ids : List Text) :
    normalizeReviewDimensionIds (normalizeReviewDimensionIds ids) = normalizeReviewDimensionIds ids := by
  refine List.filter_congr fun id hid => ?_
  rw [Bool.eq_iff_iff, List.contains_iff_mem, List.contains_iff_mem, normalizeReviewDimensionIds, List.mem_filter,
    List.contains_iff_mem]
  exact and_iff_right hid

/-! ### Versions -/

theorem LSP_KEY_SET_names : ∀ key ∈ LSP_KEY_SET, key ≠ units "__proto__" ∧ index key = none := by decide

theorem setField_record {done : List (Text × Text)} (hnodup : (done.map Prod.fst).Nodup) (key text : Text) :
    ∃ done' : List (Text × Text), setField (done.map (Prod.map id .str)) key (.str text) =
        done'.map (Prod.map id .str) ∧ (done'.map Prod.fst).Nodup ∧
      ∀ v ∈ done', v ∈ done ∨ v = (key, text) := by
  have hkeys : (done.map (Prod.map id Json.str)).any (fun field => field.1 = key) =
      done.any fun field => field.1 = key := by
    rw [List.any_map]
    rfl
  rw [setField, hkeys]
  split
  · refine ⟨done.map fun v => if v.1 = key then (key, text) else v, ?_, ?_, fun v hv => ?_⟩
    · rw [List.map_map, List.map_map]
      refine List.map_congr_left fun v _ => ?_
      rw [Function.comp_apply, Function.comp_apply, Prod.map_fst, id_eq]
      split <;> rfl
    · have hfst : (done.map fun v => if v.1 = key then (key, text) else v).map Prod.fst = done.map Prod.fst := by
        rw [List.map_map]
        refine List.map_congr_left fun v _ => ?_
        rw [Function.comp_apply]
        split
        · next heq => exact heq.symm
        · rfl
      rwa [hfst]
    · obtain ⟨w, hw, rfl⟩ := List.mem_map.mp hv
      split
      · exact .inr rfl
      · exact .inl hw
  · next hany =>
    refine ⟨done ++ [(key, text)], by rw [List.map_append]; rfl, ?_, fun v hv => ?_⟩
    · rw [List.map_append, List.map_singleton, List.nodup_append]
      refine ⟨hnodup, List.nodup_singleton _, fun k hk k' hk' heq => hany ?_⟩
      rw [List.mem_singleton] at hk'
      obtain ⟨v, hv, rfl⟩ := List.mem_map.mp hk
      exact List.any_eq_true.mpr ⟨v, hv, decide_eq_true (heq.trans hk')⟩
    · exact (List.mem_append.mp hv).imp_right List.mem_singleton.mp

theorem foldl_takeVersion (entries : JsonFields) (done : List (Text × Text)) (hnodup : (done.map Prod.fst).Nodup)
    (h : ∀ v ∈ done, v.1 ∈ LSP_KEY_SET ∧ nonEmptyText (.str v.2) = some v.2) :
    ∃ versions : List (Text × Text), entries.foldl takeVersion (done.map (Prod.map id .str)) =
        versions.map (Prod.map id .str) ∧ (versions.map Prod.fst).Nodup ∧
      ∀ v ∈ versions, v.1 ∈ LSP_KEY_SET ∧ nonEmptyText (.str v.2) = some v.2 := by
  induction entries generalizing done with
  | nil => exact ⟨done, rfl, hnodup, h⟩
  | cons entry entries ih =>
    rw [List.foldl_cons, takeVersion]
    split
    · next text htext =>
      split
      · next hkey =>
        obtain ⟨done', heq, hnodup', hmem⟩ := setField_record hnodup entry.1 text
        rw [heq]
        refine ih done' hnodup' fun v hv => (hmem v hv).elim (h v) ?_
        rintro rfl
        exact ⟨List.contains_iff_mem.mp hkey, nonEmptyText_normal htext⟩
      · exact ih done hnodup h
    · exact ih done hnodup h

/-- Entries in their normal form are taken as they come. -/
theorem foldl_takeVersion_of_normal {versions : List (Text × Text)} (hnodup : (versions.map Prod.fst).Nodup)
    (h : ∀ v ∈ versions, v.1 ∈ LSP_KEY_SET ∧ nonEmptyText (.str v.2) = some v.2) :
    (versions.map (Prod.map id Json.str)).foldl takeVersion [] = versions.map (Prod.map id Json.str) := by
  have htake : (versions.map (Prod.map id Json.str)).foldl takeVersion [] =
      (versions.map (Prod.map id Json.str)).foldl (fun done field => setField done field.1 field.2) [] := by
    refine List.foldl_ext _ _ _ fun clean field hfield => ?_
    obtain ⟨v, hv, rfl⟩ := List.mem_map.mp hfield
    obtain ⟨hkey, htext⟩ := h v hv
    rw [takeVersion, Prod.map_snd, htext]
    exact if_pos (List.contains_iff_mem.mpr hkey)
  have hnodup' : (([] ++ versions.map (Prod.map id Json.str)).map Prod.fst).Nodup := by
    rw [List.nil_append, List.map_map]
    exact hnodup
  rw [htake, Lib.Json.foldl_setField hnodup', List.nil_append]

/-! ### Watermarks -/

theorem takenFor_of_takeWatermark {fields : JsonFields} {key : Text} {taken : List (Text × Text)}
    (h : takeWatermark fields key = some taken) : TakenFor key taken := by
  rw [takeWatermark] at h
  split at h
  · exact .inl (Option.some.inj h).symm
  · exact .inl (Option.some.inj h).symm
  · split at h
    · next sha _ hcommit => exact .inr ⟨sha, (Option.some.inj h).symm, hcommit⟩
    · cases h
  · cases h

theorem reviewWatermarks_normal {value result : Json} (h : reviewWatermarks value = some result) :
    Normal .reviewWatermarks result := by
  cases value with
  | obj fields =>
    obtain ⟨taken, htaken, rfl⟩ := Option.map_eq_some_iff.mp h
    refine .reviewWatermarks ?_
    clear h
    generalize REVIEW_WATERMARK_KEYS = keys at htaken
    induction keys generalizing taken with
    | nil =>
      obtain rfl := Option.some.inj htaken
      exact .nil
    | cons key keys ih =>
      rw [List.mapM_cons] at htaken
      obtain ⟨first, hfirst, htail⟩ := Option.bind_eq_some_iff.mp htaken
      obtain ⟨rest, hrest, heq⟩ := Option.bind_eq_some_iff.mp htail
      obtain rfl := Option.some.inj heq
      exact .cons (takenFor_of_takeWatermark hfirst) (ih rest hrest)
  | _ => cases h

theorem takeWatermark_flatten (before behind : List (Text × Text)) {key : Text} {taken : List (Text × Text)}
    (h : TakenFor key taken) (hbefore : ∀ entry ∈ before, entry.1 ≠ key)
    (hbehind : ∀ entry ∈ behind, entry.1 ≠ key) :
    takeWatermark ((before ++ (taken ++ behind)).map (Prod.map id .str)) key = some taken := by
  have hskip : ∀ (entries : List (Text × Text)) (rest : JsonFields), (∀ entry ∈ entries, entry.1 ≠ key) →
      (entries.map (Prod.map id Json.str) ++ rest).lookup key = rest.lookup key := by
    intro entries rest hne
    induction entries with
    | nil => rfl
    | cons entry entries ih =>
      have hkey : (key == entry.1) = false := beq_eq_false_iff_ne.mpr (hne entry List.mem_cons_self).symm
      rw [List.map_cons, List.cons_append, List.lookup_cons, Prod.map_fst, id_eq, hkey]
      exact ih fun entry' h => hne entry' (List.mem_cons_of_mem _ h)
  have hnone : (behind.map (Prod.map id Json.str)).lookup key = none := by
    have hlookup := hskip behind [] hbehind
    rwa [List.append_nil] at hlookup
  rw [takeWatermark, List.map_append, hskip _ _ hbefore, List.map_append]
  rcases h with rfl | ⟨sha, rfl, hcommit⟩
  · rw [List.map_nil, List.nil_append, hnone]
  · rw [List.map_singleton, List.singleton_append, List.lookup_cons, Prod.map_fst, id_eq, beq_self_eq_true]
    exact if_pos hcommit

theorem key_of_takenFor {key : Text} {taken : List (Text × Text)} (h : TakenFor key taken) :
    ∀ entry ∈ taken, entry.1 = key := by
  rcases h with rfl | ⟨sha, rfl, -⟩
  · exact fun _ hmem => absurd hmem List.not_mem_nil
  · exact fun _ hmem => List.mem_singleton.mp hmem ▸ rfl

/-- The two watermarks that a normal form takes. -/
theorem forall₂_watermarks {taken : List (List (Text × Text))} (h : List.Forall₂ TakenFor REVIEW_WATERMARK_KEYS taken) :
    ∃ kb plan, taken = [kb, plan] ∧ TakenFor (units "kbSyncedCommit") kb ∧ TakenFor (units "planSyncedCommit") plan := by
  cases h with
  | cons hkb h =>
    cases h with
    | cons hplan h =>
      cases h
      exact ⟨_, _, rfl, hkb, hplan⟩

theorem kb_ne_plan : units "kbSyncedCommit" ≠ units "planSyncedCommit" := by decide

theorem reviewWatermarks_of_normal {taken : List (List (Text × Text))}
    (h : List.Forall₂ TakenFor REVIEW_WATERMARK_KEYS taken) :
    reviewWatermarks (record taken.flatten) = some (record taken.flatten) := by
  obtain ⟨kb, plan, rfl, hkb, hplan⟩ := forall₂_watermarks h
  have hkeyKb := key_of_takenFor hkb
  have hkeyPlan := key_of_takenFor hplan
  have hflat : [kb, plan].flatten = kb ++ plan := by simp
  have hfirst : takeWatermark ((kb ++ plan).map (Prod.map id .str)) (units "kbSyncedCommit") = some kb :=
    takeWatermark_flatten [] plan hkb (fun _ hmem => absurd hmem List.not_mem_nil) fun entry hmem heq =>
      kb_ne_plan (heq.symm.trans (hkeyPlan entry hmem))
  have hsecond : takeWatermark ((kb ++ plan).map (Prod.map id .str)) (units "planSyncedCommit") = some plan := by
    have hlast := takeWatermark_flatten kb [] hplan
      (fun entry hmem heq => kb_ne_plan ((hkeyKb entry hmem).symm.trans heq))
      fun _ hmem => absurd hmem List.not_mem_nil
    rwa [List.append_nil] at hlast
  rw [hflat, record, reviewWatermarks, REVIEW_WATERMARK_KEYS, List.map_cons, List.map_singleton, List.mapM_cons,
    hfirst, List.mapM_cons, hsecond]
  exact congrArg (fun entries => some (record entries)) hflat

theorem sortKeys_watermarks {taken : List (List (Text × Text))} (h : List.Forall₂ TakenFor REVIEW_WATERMARK_KEYS taken) :
    sortKeys (record taken.flatten) = record taken.flatten := by
  obtain ⟨kb, plan, rfl, hkb, hplan⟩ := forall₂_watermarks h
  have hkeyKb := key_of_takenFor hkb
  have hkeyPlan := key_of_takenFor hplan
  have hflat : [kb, plan].flatten = kb ++ plan := by simp
  have hlength : ∀ {key : Text} {entries : List (Text × Text)}, TakenFor key entries →
      entries.Pairwise keyBefore := by
    intro key entries h
    rcases h with rfl | ⟨sha, rfl, -⟩
    · exact .nil
    · exact List.pairwise_singleton _ _
  have hnames : ∀ v ∈ kb ++ plan, v.1 ≠ units "__proto__" := by
    intro v hv
    rcases List.mem_append.mp hv with hv | hv
    · rw [hkeyKb v hv]
      decide
    · rw [hkeyPlan v hv]
      decide
  rw [hflat, sortKeys_record hnames, List.Pairwise.insertionSort_eq]
  refine List.pairwise_append.mpr ⟨hlength hkb, hlength hplan, fun v hv w hw => ?_⟩
  rw [keyBefore, hkeyKb v hv, hkeyPlan w hw]
  decide

/-! ## Stability -/

theorem normal_of_normalizeAs {name : PortableSettingName} {value result : Json}
    (h : normalizeAs name value = .ok result) : Normal name result := by
  cases name with
  | scopeExcludeGlobs =>
    rw [normalizeAs] at h
    split at h
    · obtain rfl := SettingCheck.ok.inj h
      exact normalGlobs_normal _
    · cases h
  | rtkEnabled =>
    cases value with
    | bool b =>
      obtain rfl := SettingCheck.ok.inj h
      exact .rtkEnabled b
    | _ => cases h
  | rtkVersion =>
    rw [normalizeAs] at h
    split at h
    · next htext =>
      obtain rfl := SettingCheck.ok.inj h
      exact .rtkVersion (nonEmptyText_normal htext)
    · cases h
  | chromeDevtoolsMcpVersion =>
    rw [normalizeAs] at h
    split at h
    · next htext =>
      obtain rfl := SettingCheck.ok.inj h
      exact .chromeDevtoolsMcpVersion (nonEmptyText_normal htext)
    · cases h
  | lspServers =>
    rw [normalizeAs] at h
    split at h
    · obtain rfl := SettingCheck.ok.inj h
      refine .lspServers (nodup_eraseDups _) fun s hs => ?_
      exact List.contains_iff_mem.mp (List.mem_filter.mp (List.mem_eraseDups.mp hs)).2
    · cases h
  | lspServerVersions =>
    rw [normalizeAs] at h
    split at h
    · next fields _ =>
      obtain rfl := SettingCheck.ok.inj h
      obtain ⟨versions, heq, hnodup, hall⟩ := foldl_takeVersion (propertyOrder fields) []
        List.nodup_nil fun _ hmem => absurd hmem List.not_mem_nil
      rw [show (propertyOrder fields).foldl takeVersion [] = versions.map (Prod.map id .str) from heq]
      exact .lspServerVersions hnodup hall
    · cases h
  | reviewDimensions =>
    rw [normalizeAs] at h
    split at h
    · cases h
    · next hne =>
      obtain rfl := SettingCheck.ok.inj h
      refine .reviewDimensions hne ?_
      cases hlist : stringList? value with
      | none =>
        rw [hlist] at hne
        exact absurd rfl hne
      | some ids => exact normalizeReviewDimensionIds_twice ids
  | agentRules =>
    rw [normalizeAs] at h
    split at h
    · next htext =>
      obtain rfl := SettingCheck.ok.inj h
      exact .agentRules (normalizeAgentRulesOverride_stable htext)
    · cases h
  | reviewWatermarks =>
    rw [normalizeAs] at h
    split at h
    · next hwatermarks =>
      obtain rfl := SettingCheck.ok.inj h
      exact reviewWatermarks_normal hwatermarks
    · cases h

theorem versionMap?_record (versions : List (Text × Text)) :
    versionMap? (record versions) = some (versions.map (Prod.map id .str)) := by
  refine if_pos (List.all_eq_true.mpr fun field hfield => ?_)
  obtain ⟨v, -, rfl⟩ := List.mem_map.mp hfield
  rfl

theorem normalizeAs_of_normal {name : PortableSettingName} {result : Json} (h : Normal name result) :
    normalizeAs name result = .ok result := by
  cases h with
  | scopeExcludeGlobs hsort hnodup h =>
    rw [normalizeAs, stringList?_texts]
    exact congrArg (SettingCheck.ok ∘ texts) (normalGlobs_of_normal hsort hnodup h)
  | rtkEnabled b => rfl
  | rtkVersion h => rw [normalizeAs, h]
  | chromeDevtoolsMcpVersion h => rw [normalizeAs, h]
  | @lspServers servers hnodup h =>
    have hkeep : servers.filter LSP_KEY_SET.contains = servers :=
      List.filter_eq_self.mpr fun s hs => List.contains_iff_mem.mpr (h s hs)
    rw [normalizeAs, stringList?_texts]
    dsimp only
    rw [hkeep, eraseDups_of_nodup hnodup]
  | @lspServerVersions versions hnodup h =>
    have horder : propertyOrder (versions.map (Prod.map id Json.str)) = versions.map (Prod.map id Json.str) := by
      refine Lib.Json.propertyOrder_of_names fun field hfield => ?_
      obtain ⟨v, hv, rfl⟩ := List.mem_map.mp hfield
      exact (LSP_KEY_SET_names v.1 (h v hv).1).2
    rw [normalizeAs, versionMap?_record]
    dsimp only
    rw [horder, foldl_takeVersion_of_normal hnodup h]
    rfl
  | reviewDimensions hne h =>
    rw [normalizeAs, stringList?_texts, Option.map_some, Option.getD_some, h, if_neg hne]
  | agentRules h => rw [normalizeAs, h]
  | reviewWatermarks h => rw [normalizeAs, reviewWatermarks_of_normal h]

/-- The keys of a normal form are put in order, and it stays one. -/
theorem Normal.sortKeys {name : PortableSettingName} {result : Json} (h : Normal name result) :
    Normal name (sortKeys result) := by
  cases h with
  | @scopeExcludeGlobs globs hsort hnodup h =>
    rw [sortKeys_texts]
    exact .scopeExcludeGlobs hsort hnodup h
  | rtkEnabled b => exact .rtkEnabled b
  | rtkVersion h => exact .rtkVersion h
  | chromeDevtoolsMcpVersion h => exact .chromeDevtoolsMcpVersion h
  | lspServers hnodup h =>
    rw [sortKeys_texts]
    exact .lspServers hnodup h
  | @lspServerVersions versions hnodup h =>
    have hperm := List.perm_insertionSort keyBefore versions
    rw [sortKeys_record fun v hv => (LSP_KEY_SET_names v.1 (h v hv).1).1]
    exact .lspServerVersions ((hperm.map Prod.fst).nodup_iff.mpr hnodup) fun v hv => h v (hperm.mem_iff.mp hv)
  | reviewDimensions hne h =>
    rw [sortKeys_texts]
    exact .reviewDimensions hne h
  | agentRules h => exact .agentRules h
  | @reviewWatermarks taken h =>
    have hsorted := sortKeys_watermarks h
    rw [hsorted]
    exact .reviewWatermarks h

theorem Normal.sortKeys_sortKeys {name : PortableSettingName} {result : Json} (h : Normal name result) :
    ProjectState.sortKeys (ProjectState.sortKeys result) = ProjectState.sortKeys result := by
  cases h with
  | scopeExcludeGlobs | lspServers | reviewDimensions => rw [sortKeys_texts, sortKeys_texts]
  | rtkEnabled | rtkVersion | chromeDevtoolsMcpVersion | agentRules => rfl
  | @lspServerVersions versions hnodup h =>
    have hnames : ∀ v ∈ versions, v.1 ≠ units "__proto__" := fun v hv => (LSP_KEY_SET_names v.1 (h v hv).1).1
    have hsort := List.pairwise_insertionSort keyBefore versions
    rw [sortKeys_record hnames, sortKeys_record fun v hv => hnames v ((List.mem_insertionSort _).mp hv),
      hsort.insertionSort_eq]
  | reviewWatermarks h => rw [sortKeys_watermarks h, sortKeys_watermarks h]

theorem Normal.printable {name : PortableSettingName} {result : Json} (h : Normal name result)
    (numberText : Float → Text) : Printable numberText result := by
  cases h with
  | scopeExcludeGlobs | lspServers | reviewDimensions => exact printable_texts numberText _
  | rtkEnabled b => exact .bool b
  | rtkVersion | chromeDevtoolsMcpVersion | agentRules => exact .str _
  | lspServerVersions | reviewWatermarks => exact printable_record numberText _

theorem REVIEW_WATERMARK_KEYS_names : ∀ key ∈ REVIEW_WATERMARK_KEYS, index key = none := by decide

/-- The parser lists a normal form as it is. -/
theorem Normal.listed {name : PortableSettingName} {result : Json} (h : Normal name result) :
    Lib.Json.listed result = result := by
  cases h with
  | scopeExcludeGlobs | lspServers | reviewDimensions => exact listed_texts _
  | rtkEnabled | rtkVersion | chromeDevtoolsMcpVersion | agentRules => rfl
  | lspServerVersions hnodup h => exact listed_record hnodup fun v hv => (LSP_KEY_SET_names v.1 (h v hv).1).2
  | reviewWatermarks h =>
    obtain ⟨kb, plan, rfl, hkb, hplan⟩ := forall₂_watermarks h
    have hkeyKb := key_of_takenFor hkb
    have hkeyPlan := key_of_takenFor hplan
    have hnodup : ∀ {key : Text} {entries : List (Text × Text)}, TakenFor key entries →
        (entries.map Prod.fst).Nodup := by
      intro key entries h
      rcases h with rfl | ⟨sha, rfl, -⟩
      · exact List.nodup_nil
      · exact List.nodup_singleton _
    have hflat : [kb, plan].flatten = kb ++ plan := by simp
    rw [hflat]
    refine listed_record ?_ fun v hv => REVIEW_WATERMARK_KEYS_names _ ?_
    · rw [List.map_append, List.nodup_append]
      refine ⟨hnodup hkb, hnodup hplan, fun k hk k' hk' heq => kb_ne_plan ?_⟩
      obtain ⟨v, hv, rfl⟩ := List.mem_map.mp hk
      obtain ⟨w, hw, rfl⟩ := List.mem_map.mp hk'
      rw [← hkeyKb v hv, ← hkeyPlan w hw, heq]
    · rcases List.mem_append.mp hv with hv | hv
      · rw [hkeyKb v hv]
        decide
      · rw [hkeyPlan v hv]
        decide

/-- A normal form is normalised to itself, and what is read back from its canonical text to the same
value. -/
theorem normalizeSetting_stable (numberText : Float → Text) {name : Text} {value result : Json}
    (h : normalizeSetting name value = .ok result) :
    normalizeSetting name result = .ok result ∧
      ∃ read, Json.parse (canonicalJson numberText result) = some read ∧
        normalizeSetting name read = .ok (sortKeys result) ∧
        sameValue numberText (some (sortKeys result)) (some result) = true := by
  rw [normalizeSetting] at h
  split at h
  · next known hknown =>
    have hnormal := normal_of_normalizeAs h
    have hsorted := hnormal.sortKeys
    have hname : ∀ value, normalizeSetting name value = normalizeAs known.2 value := by
      intro value
      rw [normalizeSetting, hknown]
    refine ⟨(hname result).trans (normalizeAs_of_normal hnormal), sortKeys result, ?_,
      (hname _).trans (normalizeAs_of_normal hsorted), decide_eq_true ?_⟩
    · rw [parse_canonicalJson numberText (hsorted.printable numberText), hsorted.listed]
    · rw [canonicalJson, canonicalJson, hnormal.sortKeys_sortKeys]
  · cases h

/-- A list of globs with slashes around them and one of them twice. -/
theorem normalizeSetting_stable_globs :
    normalizeSetting (units "scope-exclude-globs") (texts [units "/vendor/", units "dist", units "vendor"]) =
      .ok (texts [units "dist", units "vendor"]) ∧
    normalizeSetting (units "scope-exclude-globs") (texts [units "dist", units "vendor"]) =
      .ok (texts [units "dist", units "vendor"]) :=
  have haccepted : normalizeSetting (units "scope-exclude-globs")
      (texts [units "/vendor/", units "dist", units "vendor"]) = .ok (texts [units "dist", units "vendor"]) := rfl
  ⟨haccepted, (normalizeSetting_stable (fun _ => units "null") haccepted).1⟩

end Haive.ProjectState
