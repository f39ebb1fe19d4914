import DotModel.Proofs.Outcome
import DotModel.Proofs.Settings.Unwrapping
import DotModel.Proofs.Settings.Variables
import DotModel.Settings.Layers

/-!
# What is loaded

The value that is used for a setting is the one of the environment, or else the one of the text, or
else the default, and loading succeeds with the used values if they have the types and ranges of
their settings.  Nothing else counts: not what a later layer hides, not the other keys, and not the
order of the variables.

This holds however texts and variables are read.
-/

namespace DotModel.Settings

variable {r : Readers} {α : Type} {layer : Layer} {assigned assigned' : List (String × String)}
  {key : String} {value : Value} {s : Settings} {values values' : String → Option Value}

/-! ## Values of settings -/

/-- The keys of the settings. -/
def settingKeys : List String := ["max_depth", "indent", "emit_orphans"]

/-- The values under the key are the same for whoever does not accept tables. -/
def ReadAlike (values values' : String → Option Value) (key : String) : Prop :=
  ∀ (α : Type) (read : Value → Option α), (∀ entries, read (.table entries) = none) →
    (values key).map read = (values' key).map read

theorem setting_congr {read : Value → Option α} {default : α} (h : ReadAlike values values' key)
    (hread : ∀ entries, read (.table entries) = none) :
    setting read key default values = setting read key default values' := by
  rw [setting, setting, h α read hread]

theorem ofValues_congr (h : ∀ key ∈ settingKeys, ReadAlike values values' key) :
    ofValues values = ofValues values' := by
  have hmaxDepth := h "max_depth" (by decide)
  have hindent := h "indent" (by decide)
  have hemitOrphans := h "emit_orphans" (by decide)
  rw [ofValues, ofValues, setting_congr hmaxDepth fun _ => rfl, setting_congr hindent fun _ => rfl,
    setting_congr hemitOrphans fun _ => rfl]

/-- The values are those of the settings, and within their ranges. -/
structure AreValid (values : String → Option Value) (s : Settings) : Prop where
  maxDepth : values "max_depth" = some (.int s.maxDepth)
  maxDepth_pos : 1 ≤ s.maxDepth
  maxDepth_lt : s.maxDepth < Nat.pow 2 64
  indent : values "indent" = some (.text s.indent)
  emitOrphans : values "emit_orphans" = some (.bool s.emitOrphans)

theorem Value.count?_eq_some_iff {n : Nat} :
    value.count? = some n ↔ value = .int n ∧ n < Nat.pow 2 64 := by
  have hbound : Int.pow 2 64 = Nat.pow 2 64 := rfl
  cases value with
  | int m =>
      rw [Value.count?, hbound, Option.ite_none_right_eq_some, Value.int.injEq, Option.some.injEq]
      omega
  | bool | fraction | date | text | list | table => simp [Value.count?]

theorem Value.text?_eq_some_iff {text : String} : value.text? = some text ↔ value = .text text := by
  cases value <;> simp [Value.text?]

theorem Value.bool?_eq_some_iff {b : Bool} : value.bool? = some b ↔ value = .bool b := by
  cases value <;> simp [Value.bool?]

theorem setting_eq_ok_iff {read : Value → Option α} {default a : α} (h : (values key).isSome) :
    setting read key default values = .ok a ↔ ∃ value, values key = some value ∧
      read value = some a := by
  obtain ⟨value, hvalue⟩ := Option.isSome_iff_exists.mp h
  rw [setting, hvalue, Option.map_some]
  cases hread : read value <;> simp [hread]

theorem validate_eq_ok_iff {s' : Settings} : s.validate = .ok s' ↔ s = s' ∧ 1 ≤ s.maxDepth := by
  rw [validate]
  split
  · rename_i hzero
    simp [hzero]
  · rename_i hpos
    simp [Nat.one_le_iff_ne_zero, hpos]

theorem ofValues_bind_validate_eq_ok_iff (h : ∀ key ∈ settingKeys, (values key).isSome) :
    ofValues values >>= validate = .ok s ↔ AreValid values s := by
  have hmaxDepth := h "max_depth" (by decide)
  have hindent := h "indent" (by decide)
  have hemitOrphans := h "emit_orphans" (by decide)
  simp only [ofValues, bind_eq_ok_iff, validate_eq_ok_iff, setting_eq_ok_iff hmaxDepth,
    setting_eq_ok_iff hindent, setting_eq_ok_iff hemitOrphans, Value.count?_eq_some_iff,
    Value.text?_eq_some_iff, Value.bool?_eq_some_iff]
  constructor
  · rintro ⟨_, ⟨n, ⟨v, hv, rfl, hlt⟩, indent, ⟨_, hindent, rfl⟩, b, ⟨_, hb, rfl⟩, hs⟩, rfl, hpos⟩
    cases hs
    exact ⟨hv, hpos, hlt, hindent, hb⟩
  · intro hvalid
    exact ⟨s, ⟨_, ⟨_, hvalid.maxDepth, rfl, hvalid.maxDepth_lt⟩, _, ⟨_, hvalid.indent, rfl⟩, _,
      ⟨_, hvalid.emitOrphans, rfl⟩, rfl⟩, rfl, hvalid.maxDepth_pos⟩

/-! ## Loading -/

/-- The value that is used for a key: the one of the variables, or of the text, or the default. -/
def usedValue? (r : Readers) (layer : Layer) (assigned : List (String × String)) (key : String) :
    Option Value :=
  ((assignedValue? r.value assigned key).or (layer.find? key)).or (defaults.find? key)

/-- The layer of a text; empty if there is no text. -/
def Readers.textLayer? (r : Readers) (text : Option String) : Option Layer :=
  text.elim (some ∅) r.layer?

theorem readAlike_merged (h : SetApart assigned) (hkey : key ≠ "") :
    ReadAlike
      ((defaults.merge layer.toList).merge (Environment.layer r.value assigned).toList).find?
      (usedValue? r layer assigned) key := by
  intro α read hread
  rw [Layer.map_find?_merge hread (Environment.layer r.value assigned).nodup_keys, ← OrdMap.find?,
    h.find?_layer hkey, usedValue?]
  cases assignedValue? r.value assigned key with
  | some value => rfl
  | none => exact Layer.map_find?_merge hread layer.nodup_keys

/-- Loading looks at the used values only. -/
theorem Readers.load_eq {text : Option String} (htext : r.textLayer? text = some layer)
    (h : SetApart assigned) :
    r.load text assigned = ofValues (usedValue? r layer assigned) >>= validate := by
  have hlayer : text.elim (.ok ∅) r.textLayer = .ok layer := by
    cases text with
    | none => cases htext; rfl
    | some text =>
        have htext : r.layer? text = some layer := htext
        rw [Option.elim_some, Readers.textLayer, htext]
  have hvalues : ∀ key ∈ settingKeys, key ≠ "" := by decide
  rw [Readers.load, hlayer, ok_bind]
  exact congrArg (· >>= validate) (ofValues_congr fun key hkey =>
    readAlike_merged h (hvalues key hkey))

theorem Readers.load_of_malformed {text : String} (h : r.layer? text = none)
    (assigned : List (String × String)) :
    r.load (some text) assigned = .error (.settings .malformed) := by
  rw [Readers.load, Option.elim_some, Readers.textLayer, h, error_bind]

theorem isSome_usedValue? (r : Readers) (layer : Layer) (assigned : List (String × String)) :
    ∀ key ∈ settingKeys, (usedValue? r layer assigned key).isSome := by
  have hdefaults : ∀ key ∈ settingKeys, (defaults.find? key).isSome := by decide
  intro key hkey
  rw [usedValue?, Option.isSome_or, hdefaults key hkey, Bool.or_true]

theorem exists_fault_of_setting {read : Value → Option α} {default : α} {e : Error}
    (h : setting read key default values = .error e) : ∃ fault, e = .settings fault := by
  unfold setting at h
  split at h <;> cases h
  exact ⟨_, rfl⟩

theorem exists_fault_of_ofValues {e : Error} (h : ofValues values = .error e) :
    ∃ fault, e = .settings fault := by
  simp only [ofValues, bind_eq_error_iff] at h
  rcases h with h | ⟨_, -, h | ⟨_, -, h | ⟨_, -, h⟩⟩⟩
  · exact exists_fault_of_setting h
  · exact exists_fault_of_setting h
  · exact exists_fault_of_setting h
  · cases h

theorem Readers.exists_fault_of_load {text : Option String} {e : Error}
    (h : r.load text assigned = .error e) : ∃ fault, e = .settings fault := by
  rw [Readers.load, bind_eq_error_iff] at h
  rcases h with h | ⟨layer, -, h⟩
  · cases text with
    | none => cases h
    | some text =>
        rw [Option.elim_some, Readers.textLayer] at h
        split at h <;> cases h
        exact ⟨_, rfl⟩
  rcases bind_eq_error_iff.mp h with h | ⟨s, -, h⟩
  · exact exists_fault_of_ofValues h
  · rw [validate] at h
    split at h <;> cases h
    exact ⟨_, rfl⟩

theorem Readers.validate_of_load {text : Option String} (h : r.load text assigned = .ok s) :
    s.validate = .ok s := by
  obtain ⟨layer, -, h⟩ := bind_eq_ok_iff.mp h
  obtain ⟨s', -, h⟩ := bind_eq_ok_iff.mp h
  obtain ⟨rfl, hpos⟩ := validate_eq_ok_iff.mp h
  exact h

/-- Without variables nothing is merged into the layer of the text. -/
theorem Readers.ofText_eq (r : Readers) (text : String) : r.ofText text = r.load (some text) [] :=
  rfl

/-- How settings are loaded. -/
structure Readers.LoadsInLayers (r : Readers) : Prop where
  /-- A malformed text is refused, -/
  malformed : ∀ text assigned, r.layer? text = none →
    r.load (some text) assigned = .error (.settings .malformed)
  /-- and otherwise loading succeeds if the used values are valid, with exactly these values. -/
  load_eq_ok_iff : ∀ text layer assigned, r.textLayer? text = some layer → SetApart assigned →
    ∀ s, r.load text assigned = .ok s ↔ AreValid (usedValue? r layer assigned) s
  /-- Values that are not used do not matter, -/
  only_used : ∀ text text' layer layer' assigned assigned',
    r.textLayer? text = some layer → r.textLayer? text' = some layer' →
    SetApart assigned → SetApart assigned' →
    (∀ key ∈ settingKeys,
      usedValue? r layer assigned key = usedValue? r layer' assigned' key) →
    r.load text assigned = r.load text' assigned'
  /-- and neither does the order of the variables. -/
  perm : ∀ text assigned assigned', SetApart assigned → assigned.Perm assigned' →
    r.load text assigned = r.load text assigned'
  /-- A text alone is loaded as with no variables. -/
  ofText_eq : ∀ text, r.ofText text = r.load (some text) []
  /-- Whatever is loaded is valid, and whatever is not is the fault of the settings. -/
  validate : ∀ text assigned s, r.load text assigned = .ok s → s.validate = .ok s
  fault : ∀ text assigned e, r.load text assigned = .error e → ∃ fault, e = .settings fault

theorem Readers.loadsInLayers (r : Readers) : r.LoadsInLayers where
  malformed text assigned h := r.load_of_malformed h assigned
  load_eq_ok_iff text layer assigned htext h s := by
    rw [r.load_eq htext h, ofValues_bind_validate_eq_ok_iff (isSome_usedValue? r layer assigned)]
  only_used text text' layer layer' assigned assigned' htext htext' h h' hused := by
    rw [r.load_eq htext h, r.load_eq htext' h', ofValues_congr]
    intro key hkey α read _
    rw [hused key hkey]
  perm text assigned assigned' h hperm := by
    cases htext : r.textLayer? text with
    | none =>
        cases text with
        | none => cases htext
        | some text =>
            have htext : r.layer? text = none := htext
            rw [r.load_of_malformed htext, r.load_of_malformed htext]
    | some layer =>
        have hused : usedValue? r layer assigned = usedValue? r layer assigned' := by
          funext key
          rw [usedValue?, usedValue?, assignedValue?_perm h hperm]
        rw [r.load_eq htext h, r.load_eq htext (h.perm hperm), hused]
  ofText_eq := r.ofText_eq
  validate text assigned s := r.validate_of_load
  fault text assigned e := r.exists_fault_of_load

/-! ## Texts in TOML -/

/-- The layer of a text is what the text holds, if nothing in it is wrapped. -/
theorem Readers.standard_layer?_of_plain {text : String}
    (h : (Toml.read? text).all Toml.areEntriesPlain) :
    Readers.standard.layer? text = (Toml.read? text).map OrdMap.ofList := by
  cases hread : Toml.read? text with
  | none => simp [Readers.standard, hread]
  | some entries =>
      rw [hread, Option.all_some] at h
      simp [Readers.standard, hread, Toml.unwrapEntries?_of_arePlain h]

/-- A text is malformed if it is no TOML or some table in it is marked. -/
theorem Readers.standard_layer?_eq_none_iff {text : String} :
    Readers.standard.layer? text = none ↔ (Toml.read? text).all Toml.areEntriesMarked = true := by
  cases hread : Toml.read? text with
  | none => simp [Readers.standard, hread]
  | some entries => simp [Readers.standard, hread, Toml.unwrapEntries?_eq_none_iff]

/-- Nothing is loaded from a text with a marked table, under whatever key that lies. -/
theorem load_of_marked {text : String} {entries : List (String × Value)}
    (hread : Toml.read? text = some entries) (hmarks : Toml.areEntriesMarked entries = true)
    (assigned : List (String × String)) :
    load (some text) assigned = .error (.settings .malformed) ∧
      ofToml text = .error (.settings .malformed) := by
  have hlayer : Readers.standard.layer? text = none := by
    rw [Readers.standard_layer?_eq_none_iff, hread]
    exact hmarks
  exact ⟨Readers.standard.load_of_malformed hlayer assigned,
    Readers.standard.load_of_malformed hlayer []⟩

/-- A table that wraps a value and is not marked is loaded as that value, and what else stands in it
is not looked at. -/
theorem load_of_wrapped {text text' key : String} {before after wrapping : List (String × Value)}
    {content : Value} (hread : Toml.read? text = some (before ++ (key, .table wrapping) :: after))
    (hread' : Toml.read? text' = some (before ++ (key, content) :: after))
    (hmarks : Toml.isMarked (.table wrapping) = false)
    (hcontent : wrapping.lookup Toml.contentKey = some content)
    (assigned : List (String × String)) :
    load (some text) assigned = load (some text') assigned ∧ ofToml text = ofToml text' := by
  have hlayer : Readers.standard.layer? text = Readers.standard.layer? text' := by
    simp only [Readers.standard, hread, hread', Option.bind_some,
      Toml.unwrapEntries?_wrapped hmarks hcontent]
  have hload : ∀ assigned, load (some text) assigned = load (some text') assigned := by
    intro assigned
    rw [load, load, Readers.load, Readers.load, Option.elim_some, Option.elim_some,
      Readers.textLayer, Readers.textLayer, hlayer]
  exact ⟨hload assigned, hload []⟩

example :
    ofToml "[indent]\n___figment_value_value = 'x'\nmax_depth = 0\n" = .ok { indent := "x" } := by
  decide +kernel

/-- Settings are loaded in layers, however texts and variables are read, and in particular from
texts in TOML.  The last part leaves out the texts in which some table has one of the two keys of
wrapped values; what is loaded from these is told by `load_of_marked` and `load_of_wrapped`. -/
theorem load_is_layered :
    (∀ r : Readers, r.LoadsInLayers) ∧
      load = Readers.standard.load ∧ ofToml = Readers.standard.ofText ∧
      ∀ text, (Toml.read? text).all Toml.areEntriesPlain →
        Readers.standard.layer? text = (Toml.read? text).map OrdMap.ofList :=
  ⟨Readers.loadsInLayers, rfl, rfl, fun _ => Readers.standard_layer?_of_plain⟩

/-- A text with a depth out of range, and with a table that has keys of settings in it. -/
def shallowText : String := "max_depth = 0\nindent = 'x'\n[other]\nindent = 1\n"

/-- A variable for the depth, and another one. -/
def depthVariable : List (String × String) := [("dotgraph_Max_Depth", "7"), ("PATH", "/bin")]

/-- Variables for the depth and the indentation. -/
def bothVariables : List (String × String) :=
  [("DOTGRAPH_INDENT", "x"), ("DOTGRAPH_MAX_DEPTH", "7")]

theorem load_is_layered_shallowText :
    load (some "max_depth") depthVariable = .error (.settings .malformed) ∧
      load (some shallowText) depthVariable.reverse = .ok { maxDepth := 7, indent := "x" } ∧
      load (some shallowText) depthVariable = load none bothVariables ∧
      ofToml shallowText = .error (.settings .zeroDepth) := by
  obtain ⟨hlayers, hload, hofToml, hplain⟩ := load_is_layered
  have hlayers := hlayers Readers.standard
  have hdepth : SetApart depthVariable := ⟨by decide +kernel, by decide +kernel⟩
  have hboth : SetApart bothVariables := ⟨by decide +kernel, by decide +kernel⟩
  have hmalformed : Readers.standard.layer? "max_depth" = none :=
    (hplain _ (by decide +kernel)).trans (Option.isNone_iff_eq_none.mp (by decide +kernel))
  obtain ⟨layer, hlayer⟩ : ∃ layer, Readers.standard.layer? shallowText = some layer := by
    rw [hplain _ (by decide +kernel), ← Option.isSome_iff_exists]
    decide +kernel
  have hloaded : load (some shallowText) depthVariable = .ok { maxDepth := 7, indent := "x" } := by
    decide +kernel
  have hvalid := (hlayers.load_eq_ok_iff (some shallowText) layer _ hlayer hdepth _).mp hloaded
  have hvalidBoth := (hlayers.load_eq_ok_iff none ∅ bothVariables rfl hboth
    { maxDepth := 7, indent := "x" }).mp (by decide +kernel)
  refine ⟨hlayers.malformed _ _ hmalformed, ?_, ?_, ?_⟩
  · rw [hload, ← hlayers.perm _ _ _ hdepth (List.reverse_perm depthVariable).symm]
    exact hloaded
  · refine hlayers.only_used (some shallowText) none layer ∅ _ _ hlayer rfl hdepth hboth ?_
    simp [settingKeys, hvalid.maxDepth, hvalid.indent, hvalid.emitOrphans, hvalidBoth.maxDepth,
      hvalidBoth.indent, hvalidBoth.emitOrphans]
  · rw [hofToml, hlayers.ofText_eq]
    decide +kernel

end DotModel.Settings
