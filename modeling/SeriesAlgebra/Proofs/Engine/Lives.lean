import SeriesAlgebra.Proofs.Engine.Awareness

/-!
# Metadata and the lives of formulas

A formula is created when it is registered under a name that no formula has. From then on it may be
registered again, its user may set members of its metadata, and it may get another name, until it is
deleted. What happened to it in this time is its **life**, which is told by the calls that succeed
(`Lives.after`); a call that fails is no part of any life.

Metadata tell two things of a life and nothing else (`Metadata.Tells`): the internal members, whether
the formula was aware when it was registered last, and all others, what its user has set each key
to last. This is so for every formula of every engine that is reached
(`Engine.metadata_of_recounts`), as every call that succeeds keeps it (`Engine.TellsLives.effect`).
-/

namespace SeriesAlgebra

/-! ### Lives -/

/-- **What happens to the metadata of a formula.** -/
inductive LifeEvent
  /-- It is registered, and its references are aware, or naive as far as is known. -/
  | registered (aware : Bool)
  /-- Its user sets members. -/
  | updated (members : Metadata)

/-- What happened to a formula since it was created, in order. -/
abbrev Life := List LifeEvent

namespace LifeEvent

/-- The awareness that an event is about. -/
def aware? : LifeEvent → Option Bool
  | registered aware => some aware
  | updated _ => none

/-- The members that are set. -/
def members : LifeEvent → Metadata
  | registered _ => []
  | updated members => members

end LifeEvent

namespace Life

variable {life : Life} {key : String} {members : Metadata}

/-- Whether a formula was aware when it was registered last. -/
def aware? (life : Life) : Option Bool := (life.filterMap LifeEvent.aware?).getLast?

/-- What the user has set a key to last. -/
def value? (life : Life) (key : String) : Option Json :=
  List.lookup key (life.flatMap LifeEvent.members).reverse

theorem aware?_registered (life : Life) (aware : Bool) :
    aware? (life ++ [.registered aware]) = some aware := by
  rw [aware?, List.filterMap_append]
  exact List.getLast?_concat

theorem aware?_updated (life : Life) (members : Metadata) :
    aware? (life ++ [.updated members]) = life.aware? := by
  rw [aware?, List.filterMap_append]
  exact congrArg List.getLast? (List.append_nil _)

theorem value?_registered (life : Life) (aware : Bool) (key : String) :
    value? (life ++ [.registered aware]) key = life.value? key := by
  rw [value?, List.flatMap_append]
  exact congrArg (fun l => List.lookup key (List.reverse l)) (List.append_nil _)

theorem value?_updated (life : Life) (members : Metadata) (key : String) :
    value? (life ++ [.updated members]) key =
      (List.lookup key members.reverse).or (life.value? key) := by
  rw [value?, List.flatMap_append, List.flatMap_singleton, List.reverse_append,
    List.lookup_append]
  rfl

end Life

/-- **Whether metadata tell a life**: the internal members tell the last awareness, all others what
was set last, and no key is there twice. -/
structure Metadata.Tells (m : Metadata) (life : Life) : Prop where
  internal : ∃ aware, life.aware? = some aware ∧ m.internal = initial aware
  user : ∀ key, isInternal key = false → List.lookup key m = life.value? key
  once : m.keys.Nodup

namespace Metadata

variable {m updates : Metadata} {life : Life}

/-- **The metadata of a formula that is registered**, for the first time or again, tell of it. -/
theorem tells_registered {previous : Option Metadata} {life? : Option Life}
    (h : Option.Rel Tells previous life?) (aware : Bool) :
    ((initial aware).withPreserved previous).Tells (life?.getD [] ++ [.registered aware]) where
  internal := ⟨aware, Life.aware?_registered _ _, by
    rw [internal_withPreserved, internal_initial]⟩
  user := by
    intro key hkey
    rw [Life.value?_registered, lookup_withPreserved hkey]
    · cases h with
      | some hm => exact hm.user key hkey
      | none => rfl
    · rintro m rfl
      cases h with
      | some hm => exact hm.once
  once := nodup_keys_withPreserved (nodup_keys_initial aware) previous

/-- **The metadata of a formula whose user sets members** tell of it. -/
theorem Tells.updated (h : m.Tells life) {m' : Metadata} (hm' : m.update updates = .ok m') :
    m'.Tells (life ++ [.updated updates]) := by
  obtain ⟨aware, haware, hinternal⟩ := h.internal
  have haware := (Life.aware?_updated life updates).trans haware
  have hinternal := (internal_update hm').trans hinternal
  obtain ⟨-, rfl⟩ := update_ok hm'
  refine ⟨⟨aware, haware, hinternal⟩, fun key hkey => ?_, nodup_keys_setAll h.once updates⟩
  rw [lookup_setAll, h.user key hkey, Life.value?_updated]

end Metadata

/-! ### The lives of all formulas -/

/-- The lives of formulas under their names. -/
abbrev LivesByName := String → Option Life

namespace LivesByName

/-- One event more in the life of a name, or the first in a new one. -/
def record (lives : LivesByName) (name : String) (event : LifeEvent) : LivesByName :=
  Function.update lives name (some ((lives name).getD [] ++ [event]))

/-- A life that ends. -/
def finish (lives : LivesByName) (name : String) : LivesByName := Function.update lives name none

/-- A life that goes on under another name. -/
def move (lives : LivesByName) (old new : String) : LivesByName :=
  Function.update (lives.finish old) new (lives old)

end LivesByName

/-- The lives of the formulas and group formulas that are there. -/
structure Lives where
  formulas : LivesByName
  groupFormulas : LivesByName

namespace Engine

/-- Whether the references of a text are aware; they count as naive if that is not known. -/
def findsAware (e : Engine) (text : String) : Bool :=
  ((Tree.parse text).toOption.bind fun t =>
    (commonAwareness t.text (e.awarenessOf t)).toOption.join).getD false

end Engine

namespace Lives

/-- Before anything is registered. -/
def empty : Lives := ⟨fun _ => none, fun _ => none⟩

/-- What a call that succeeds is in the lives of formulas. -/
def withCall (lives : Lives) (e : Engine) : Call → Lives
  | .registerFormula name text _ =>
    { lives with formulas := lives.formulas.record name (.registered (e.findsAware text)) }
  | .registerGroupFormula name text _ =>
    { lives with groupFormulas := lives.groupFormulas.record name (.registered (e.findsAware text)) }
  | .updateMetadata name updates =>
    { lives with formulas := lives.formulas.record name (.updated updates) }
  | .rename old new => { lives with formulas := lives.formulas.move old new }
  | .delete name => { lives with formulas := lives.formulas.finish name }
  | .deleteGroup name => { lives with groupFormulas := lives.groupFormulas.finish name }
  | _ => lives

/-- **The lives after a call**, which is no part of them if it fails. -/
def after (lives : Lives) (e : Engine) (c : Call) : Lives :=
  match (e.perform c).answer with
  | .ok () => lives.withCall e c
  | .error _ => lives

end Lives

/-! ### Records that tell lives -/

/-- Whether the formulas that are there are those that live, and their metadata tell their lives. -/
def RecordsTell (records : OrderedMap String FormulaRecord) (lives : LivesByName) : Prop :=
  ∀ name, Option.Rel Metadata.Tells ((records.find? name).map FormulaRecord.metadata) (lives name)

namespace RecordsTell

variable {records : OrderedMap String FormulaRecord} {lives : LivesByName} {name : String}

theorem insert (h : RecordsTell records lives) {record : FormulaRecord} {life : Life}
    (hrecord : record.metadata.Tells life) :
    RecordsTell (records.insert name record) (Function.update lives name (some life)) := by
  intro n
  by_cases hn : n = name
  · subst hn
    rw [OrderedMap.find?_insert_self, Function.update_self]
    exact .some hrecord
  · rw [OrderedMap.find?_insert_of_ne _ hn, Function.update_of_ne hn]
    exact h n

theorem erase (h : RecordsTell records lives) (name : String) :
    RecordsTell (records.erase name) (lives.finish name) := by
  intro n
  unfold LivesByName.finish
  by_cases hn : n = name
  · subst hn
    rw [OrderedMap.find?_erase_self, Function.update_self]
    exact .none
  · rw [OrderedMap.find?_erase_of_ne _ hn, Function.update_of_ne hn]
    exact h n

/-- A name has a formula and a life, or neither. -/
theorem find?_cases (h : RecordsTell records lives) (name : String) :
    (records.find? name = none ∧ lives name = none) ∨
      ∃ record life, records.find? name = some record ∧ lives name = some life ∧
        record.metadata.Tells life := by
  have hrel := h name
  cases hrecord : records.find? name <;> cases hlife : lives name <;> rw [hrecord, hlife] at hrel
  case none.none => exact Or.inl ⟨rfl, rfl⟩
  case none.some => cases hrel
  case some.none => cases hrel
  case some.some record life =>
    cases hrel with
    | some htells => exact Or.inr ⟨record, life, rfl, rfl, htells⟩

theorem contains_eq (h : RecordsTell records lives) (name : String) :
    records.contains name = (lives name).isSome := by
  rw [OrderedMap.contains]
  rcases h.find?_cases name with ⟨hrecord, hlife⟩ | ⟨record, life, hrecord, hlife, -⟩ <;>
    rw [hrecord, hlife] <;> rfl

theorem of_find? (h : RecordsTell records lives) {record : FormulaRecord}
    (hrecord : records.find? name = some record) :
    ∃ life, lives name = some life ∧ record.metadata.Tells life := by
  rcases h.find?_cases name with ⟨hnone, -⟩ | ⟨_, life, hfind, hlife, htells⟩
  · cases hnone.symm.trans hrecord
  · obtain rfl := Option.some.inj (hfind.symm.trans hrecord)
    exact ⟨life, hlife, htells⟩

theorem exists_find? (h : RecordsTell records lives) {life : Life} (hlife : lives name = some life) :
    ∃ record, records.find? name = some record ∧ record.metadata.Tells life := by
  rcases h.find?_cases name with ⟨-, hnone⟩ | ⟨record, _, hrecord, hfind, htells⟩
  · cases hnone.symm.trans hlife
  · obtain rfl := Option.some.inj (hfind.symm.trans hlife)
    exact ⟨record, hrecord, htells⟩

/-- What is not there has no life. -/
theorem eq_none (h : RecordsTell records lives) (hname : records.contains name = false) :
    lives name = none :=
  Option.not_isSome_iff_eq_none.1 fun hlife =>
    Bool.eq_false_iff.1 hname ((h.contains_eq name).trans hlife)

/-- So none ends when something else of that name goes. -/
theorem finish_eq (h : RecordsTell records lives) (hname : records.contains name = false) :
    lives.finish name = lives := by
  rw [LivesByName.finish, ← h.eq_none hname, Function.update_eq_self]

/-- A formula is registered under a name of which nothing is known, or which it has already. -/
theorem registered (h : RecordsTell records lives) (t : Tree) (aware : Option Bool) :
    RecordsTell (records.insert name (Engine.newRecord name t aware (records.find? name)))
      (lives.record name (.registered (aware.getD false))) :=
  h.insert (Metadata.tells_registered (h name) _)

theorem updated (h : RecordsTell records lives) {record : FormulaRecord}
    (hrecord : records.find? name = some record) {updates metadata : Metadata}
    (hmetadata : record.metadata.update updates = .ok metadata) :
    RecordsTell (records.insert name { record with metadata := metadata })
      (lives.record name (.updated updates)) := by
  obtain ⟨life, hlife, htells⟩ := h.of_find? hrecord
  rw [LivesByName.record, hlife]
  exact h.insert (htells.updated hmetadata)

end RecordsTell

namespace Engine

variable {e e' first : Engine} {c : Call} {lives : Lives}

/-! ### Calls -/

/-- **Whether the metadata of all formulas tell their lives.** -/
structure TellsLives (e : Engine) (lives : Lives) : Prop where
  formulas : RecordsTell e.formulas lives.formulas
  groupFormulas : RecordsTell e.groupFormulas lives.groupFormulas

/-- The awareness that goes into the metadata is the one that is found. -/
theorem findsAware_of_validate {name text : String} {t : Tree} (ht : Tree.parse text = .ok t)
    {expected : TypeTag} {options : RegisterOptions} {aware : Option Bool}
    (h : (e.validate name t expected options).answer = .ok aware) :
    e.findsAware text = aware.getD false := by
  rw [findsAware, ht]
  change ((commonAwareness t.text (e.awarenessOf t)).toOption.join).getD false = _
  rw [commonAwareness_of_validate h]
  rfl

/-- New references leave the metadata alone. -/
theorem recordsTell_renameReferences {records : OrderedMap String FormulaRecord} {lives : LivesByName}
    (h : RecordsTell records lives) (old new : String) (read : List ReadRecord) :
    RecordsTell (renameReferences old new read records) lives := fun name => by
  rw [metadata_renameReferences]
  exact h name

/-- A renaming moves the life of a formula, if it is one that gets another name. -/
theorem Renames.recordsTell {old new : String} {read readGroups : List ReadRecord} {store : Store}
    {moved : OrderedMap String FormulaRecord} (hr : e.Renames old new read readGroups store moved)
    (hnames : e.NamesApart) {lives : LivesByName} (h : RecordsTell e.formulas lives) :
    RecordsTell moved (lives.move old new) := by
  rcases moveSeries_cases hr.moves with ⟨hstored, -, rfl⟩ | ⟨hstored, -, rfl⟩
  · -- What is stored is no formula, under the old name or the new one.
    have hold : e.formulas.contains old = false := Bool.eq_false_iff.2 fun hformula =>
      Bool.eq_false_iff.1 (hnames.series old hformula) hstored
    rw [LivesByName.move, h.finish_eq hold, h.eq_none hold, ← LivesByName.finish,
      h.finish_eq hr.formulasFree]
    exact h
  · obtain ⟨record, hrecord⟩ := Option.isSome_iff_exists.1
      (hr.known.resolve_left (Bool.eq_false_iff.1 hstored))
    obtain ⟨life, hlife, htells⟩ := h.of_find? hrecord
    rw [moveRecord_eq hrecord, LivesByName.move, hlife]
    exact (h.erase old).insert htells

/-- **Metadata go on telling lives with every call that succeeds.** -/
theorem TellsLives.effect (h : e.TellsLives lives) (hnames : e.NamesApart)
    (heffect : e.Effect c e') : e'.TellsLives (lives.withCall e c) := by
  cases heffect with
  | updateSeries _ _ | updateGroup _ _ _ => exact ⟨h.formulas, h.groupFormulas⟩
  | updateMetadata hrecord hmetadata =>
    exact ⟨h.formulas.updated hrecord hmetadata, h.groupFormulas⟩
  | registerFormula ht _ hanswer =>
    refine ⟨?_, h.groupFormulas⟩
    rw [Lives.withCall, findsAware_of_validate ht hanswer]
    exact h.formulas.registered _ _
  | registerGroupFormula ht _ _ hanswer =>
    refine ⟨h.formulas, ?_⟩
    rw [Lives.withCall, findsAware_of_validate ht hanswer]
    exact h.groupFormulas.registered _ _
  | bind _ hbuilds _ _ _ =>
    -- Of all calls only the two that bind have this effect.
    cases c with
    | registerBinding _ _ _ | registerBindingRecords _ _ _ => exact ⟨h.formulas, h.groupFormulas⟩
    | _ => cases hbuilds
  | @renameSame name =>
    -- A life that is moved to its own name stays.
    refine ⟨?_, h.groupFormulas⟩
    rw [Lives.withCall, LivesByName.move, LivesByName.finish, Function.update_idem,
      Function.update_eq_self]
    exact h.formulas
  | rename hr =>
    exact ⟨recordsTell_renameReferences (hr.recordsTell hnames h.formulas) _ _ _,
      recordsTell_renameReferences h.groupFormulas _ _ _⟩
  | deleteFormula _ => exact ⟨h.formulas.erase _, h.groupFormulas⟩
  | deleteSeries hname _ =>
    -- No formula has the name, so no life ends; likewise for bindings and groups below.
    refine ⟨?_, h.groupFormulas⟩
    rw [Lives.withCall, h.formulas.finish_eq hname]
    exact h.formulas
  | @deleteBinding name hname =>
    refine ⟨h.formulas, ?_⟩
    rw [Lives.withCall, h.groupFormulas.finish_eq (hnames.bindings name hname).2]
    exact h.groupFormulas
  | deleteGroupFormula _ => exact ⟨h.formulas, h.groupFormulas.erase _⟩
  | @deleteGroup name store hstore =>
    have hname : e.groupFormulas.contains name = false := Bool.eq_false_iff.2 fun hformula =>
      Bool.eq_false_iff.1 (hnames.groupFormulas name hformula) (Store.deleteGroup_ok hstore).1
    refine ⟨h.formulas, ?_⟩
    rw [Lives.withCall, h.groupFormulas.finish_eq hname]
    exact h.groupFormulas

/-- **Metadata go on telling lives whatever call is made.** -/
theorem TellsLives.perform (h : e.TellsLives lives) (hnames : e.NamesApart) (c : Call) :
    (e.perform c).engine.TellsLives (lives.after e c) := by
  unfold Lives.after
  rcases e.ends_perform c with ⟨records, cause, heq, -⟩ | ⟨e₁, records, heq, heffect, -⟩
  · rw [heq]
    exact ⟨h.formulas, h.groupFormulas⟩
  · rw [heq]
    have heffect := h.effect hnames heffect
    exact ⟨heffect.formulas, heffect.groupFormulas⟩

/-! ### Runs -/

/-- **What an engine becomes, with the lives of its formulas**, by calls and by new sources. -/
inductive Recounts (first : Engine) : Engine → Lives → Prop
  | start : Recounts first first .empty
  | perform {e : Engine} {lives : Lives} (h : Recounts first e lives) (c : Call) :
      Recounts first (e.perform c).engine (lives.after e c)
  | addSource {e : Engine} {lives : Lives} (h : Recounts first e lives) (source : Source) :
      Recounts first (e.addSource source) lives

/-- Every run recounts the lives of the formulas. -/
theorem reaches_iff_recounts :
    Reaches (fun _ _ => True) first e ↔ ∃ lives, Recounts first e lives := by
  constructor
  · intro h
    induction h with
    | refl => exact ⟨_, .start⟩
    | perform _ c _ ih =>
      obtain ⟨lives, hlives⟩ := ih
      exact ⟨_, hlives.perform c⟩
    | addSource _ source ih =>
      obtain ⟨lives, hlives⟩ := ih
      exact ⟨_, hlives.addSource source⟩
  · rintro ⟨lives, h⟩
    induction h with
    | start => exact .refl
    | perform _ c ih => exact ih.perform c trivial
    | addSource _ source ih => exact ih.addSource source

theorem tellsLives_create {store : Store} {config : Config} {registry : Registry}
    (he : create store config registry = .ok e) : e.TellsLives .empty := by
  obtain ⟨_, -, hcreated⟩ := Result.bind_ok he
  obtain rfl := Except.ok.inj hcreated
  exact ⟨fun _ => .none, fun _ => .none⟩

/-- Metadata tell lives in every run. -/
theorem tellsLives_of_recounts {store : Store} {config : Config} {registry : Registry}
    (he : create store config registry = .ok first) (h : Recounts first e lives) :
    e.TellsLives lives := by
  induction h with
  | start => exact tellsLives_create he
  | perform h c ih =>
    exact ih.perform (namesApart_of_reaches he (reaches_iff_recounts.2 ⟨_, h⟩)) c
  | addSource _ _ ih => exact ⟨ih.formulas, ih.groupFormulas⟩

/-- An update that names an internal key leaves an engine exactly as it was, its ledger included. -/
theorem perform_updateMetadata_internal (e : Engine) (name : String) {updates : Metadata}
    (h : ∃ u ∈ updates, Metadata.isInternal u.1 = true) :
    ∃ cause, e.perform (.updateMetadata name updates) = ⟨e, .error cause⟩ := by
  rw [perform, updateMetadata]
  split
  · exact ⟨_, rfl⟩
  · rename_i record _
    obtain ⟨key, hrefused⟩ := Metadata.exists_update_error h record.metadata
    rw [hrefused]
    exact ⟨_, rfl⟩

/-- **The metadata of every formula tell its life**, whatever was asked of the engine: the internal
members tell what was found when it was registered last, and all others what its user has set since
it was created. An update that names an internal key is no part of any life, as it is refused and
changes nothing. -/
theorem metadata_of_recounts {store : Store} {config : Config} {registry : Registry}
    (he : create store config registry = .ok first) :
    (∀ e, Reaches (fun _ _ => True) first e ↔ ∃ lives, Recounts first e lives) ∧
      (∀ e lives, Recounts first e lives → ∀ name,
        (e.formulas.contains name = (lives.formulas name).isSome ∧
          ∀ life, lives.formulas name = some life →
            ∃ m, e.metadata name = .ok (some m) ∧ m.Tells life) ∧
        (e.groupFormulas.contains name = (lives.groupFormulas name).isSome ∧
          ∀ life, lives.groupFormulas name = some life →
            ∃ record, e.groupFormulas.find? name = some record ∧ record.metadata.Tells life)) ∧
      ∀ (e : Engine) (name : String) (updates : Metadata),
        (∃ u ∈ updates, Metadata.isInternal u.1 = true) →
          ∃ cause, e.perform (.updateMetadata name updates) = ⟨e, .error cause⟩ := by
  refine ⟨fun _ => reaches_iff_recounts, fun e lives h name => ?_,
    fun e name _ => e.perform_updateMetadata_internal name⟩
  obtain ⟨hformulas, hgroups⟩ := tellsLives_of_recounts he h
  refine ⟨⟨hformulas.contains_eq name, fun life hlife => ?_⟩, hgroups.contains_eq name,
    fun life hlife => hgroups.exists_find? hlife⟩
  obtain ⟨record, hrecord, htells⟩ := hformulas.exists_find? hlife
  refine ⟨record.metadata, ?_, htells⟩
  rw [Engine.metadata, hrecord]

/-! ### A formula with a past -/

/-- The calls that register a formula of an aware series, set two members, change its name, register
it again over a naive series, and set one of the members again, but first in vain. -/
def pastCalls : List Call :=
  [.updateSeries "a" (.ofPoints "a" [(dayOf2024 0, 1.0)]) (dayOf2024 0) true,
    .updateSeries "b" (.ofPoints "b" [(dayOf2024 0, 2.0)]) (dayOf2024 0) false,
    .registerFormula "f" "(series \"a\")" ⟨none, false⟩,
    .updateMetadata "f" [("unit", .str "MWh"), ("origin", .str "meter")],
    .rename "f" "g",
    .registerFormula "g" "(series \"b\")" ⟨none, true⟩,
    .updateMetadata "g" [("unit", .str "GWh"), ("tzaware", .bool true)],
    .updateMetadata "g" [("unit", .str "kWh")]]

/-- The engine after these calls. -/
def withPast : Engine := (overNothing .initial).performAll pastCalls

/-- The lives after several calls. -/
def livesAfterAll (e : Engine) (lives : Lives) : List Call → Lives
  | [] => lives
  | c :: rest => (e.perform c).engine.livesAfterAll (lives.after e c) rest

theorem Recounts.performAll (h : Recounts first e lives) (calls : List Call) :
    Recounts first (e.performAll calls) (e.livesAfterAll lives calls) := by
  induction calls generalizing e lives with
  | nil => exact h
  | cons c rest ih => exact ih (h.perform c)

/-- The awareness is that of the second registration, and each member is what was set last. -/
theorem metadata_withPast :
    Recounts (overNothing .initial) withPast ((overNothing .initial).livesAfterAll .empty pastCalls) ∧
      ∃ m, withPast.metadata "g" = .ok (some m) ∧ m.internal = .initial false ∧
        (List.lookup "unit" m).bind Json.str? = some "kWh" ∧
        (List.lookup "origin" m).bind Json.str? = some "meter" := by
  have hrecounts : Recounts (overNothing .initial) withPast _ := Recounts.start.performAll pastCalls
  obtain ⟨-, htold, -⟩ := metadata_of_recounts create_initial
  obtain ⟨⟨-, hmetadata⟩, -⟩ := htold withPast _ hrecounts "g"
  have hlife : (((overNothing .initial).livesAfterAll .empty pastCalls).formulas "g").any (fun life =>
      life.aware? = some false ∧ (life.value? "unit").bind Json.str? = some "kWh" ∧
        (life.value? "origin").bind Json.str? = some "meter") := by
    decide +kernel
  obtain ⟨life, hlife, hevents⟩ := (Option.any_eq_true _ _).1 hlife
  obtain ⟨haware, hunit, horigin⟩ := of_decide_eq_true hevents
  obtain ⟨m, hm, htells⟩ := hmetadata life hlife
  obtain ⟨aware, haware', hinternal⟩ := htells.internal
  obtain rfl := Option.some.inj (haware.symm.trans haware')
  rw [← htells.user "unit" rfl] at hunit
  rw [← htells.user "origin" rfl] at horigin
  exact ⟨hrecounts, m, hm, hinternal, hunit, horigin⟩

end Engine

end SeriesAlgebra
