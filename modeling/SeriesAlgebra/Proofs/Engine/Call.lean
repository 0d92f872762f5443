import SeriesAlgebra.Engine.Lifecycle
import SeriesAlgebra.Proofs.Result

/-!
# Calls

The ten calls that may change an engine are values (`Call`), and performing one gives
an outcome whatever the call (`Engine.perform`). Every exit of every call is told once
(`Engine.ends_perform`): either the call is refused, and nothing but records came into
the ledger, or it succeeds, and its effect is one of a few (`Engine.Effect`), again with
records. What holds of all engines that are reached (`Engine.Reaches`) is proved from
these effects.
-/

namespace SeriesAlgebra

/-- **What may change an engine.** -/
inductive Call
  | updateSeries (name : String) (update : Series) (date : InsertionDate) (aware : Bool)
  | updateGroup (name : String) (table : Frame) (date : InsertionDate)
  | updateMetadata (name : String) (updates : Metadata)
  | registerFormula (name text : String) (options : RegisterOptions)
  | registerGroupFormula (name text : String) (options : RegisterOptions)
  | registerBinding (group formula : String) (rows : List BindingRow)
  | registerBindingRecords (group formula : String) (records : List Json)
  | rename (old new : String)
  | delete (name : String)
  | deleteGroup (name : String)

namespace Call

/-- The name that a call registers. -/
def registers? : Call → Option String
  | registerFormula name _ _ | registerGroupFormula name _ _ => some name
  | registerBinding group _ _ | registerBindingRecords group _ _ => some group
  | _ => none

/-- Whether the text of a call, if it has one, is that of a formula. -/
def IsRead : Call → Prop
  | registerFormula _ text _ | registerGroupFormula _ text _ => ∃ t, Tree.parse text = .ok t
  | _ => True

end Call

/-- An outcome without the value of its answer. -/
def Outcome.done {α : Type} (o : Outcome α) : Outcome Unit := ⟨o.engine, o.answer.map fun _ => ()⟩

/-- What comes into the ledger if a call is refused: last, that the name is rejected. -/
def Call.Refused (c : Call) (records : List LedgerRecord) : Prop :=
  ∀ name, c.registers? = some name → c.IsRead →
    ∃ r, records.getLast? = some r ∧ r.decision = .reject ∧ r.subject = name

/-- What comes into the ledger if a call succeeds: last, that the name is registered. -/
def Call.Accepted (c : Call) (records : List LedgerRecord) : Prop :=
  ∀ name, c.registers? = some name →
    ∃ r, records.getLast? = some r ∧ r.decision = .allow ∧ r.kind = .registered ∧ r.subject = name

namespace Engine

/-- **A call and what it leaves behind.** -/
def perform (e : Engine) : Call → Outcome Unit
  | .updateSeries name update date aware => (e.updateSeries name update date aware).done
  | .updateGroup name table date => e.updateGroup name table date
  | .updateMetadata name updates => e.updateMetadata name updates
  | .registerFormula name text options => e.registerFormula name text options
  | .registerGroupFormula name text options => e.registerGroupFormula name text options
  | .registerBinding group formula rows => e.registerBinding group formula rows
  | .registerBindingRecords group formula records =>
    e.registerBindingRecords group formula records
  | .rename old new => e.rename old new
  | .delete name => e.delete name
  | .deleteGroup name => e.deleteGroup name

/-- **Engines that an engine becomes** by calls with a certain property, and by new sources. -/
inductive Reaches (P : Engine → Call → Prop) (e : Engine) : Engine → Prop
  | refl : Reaches P e e
  | perform {e' : Engine} (h : Reaches P e e') (c : Call) (hc : P e' c) :
      Reaches P e (e'.perform c).engine
  | addSource {e' : Engine} (h : Reaches P e e') (source : Source) :
      Reaches P e (e'.addSource source)

/-- The engine after several calls. -/
def performAll (e : Engine) (calls : List Call) : Engine :=
  calls.foldl (fun e c => (e.perform c).engine) e

theorem performAll_cons (e : Engine) (c : Call) (calls : List Call) :
    e.performAll (c :: calls) = (e.perform c).engine.performAll calls := rfl

theorem Reaches.performAll {P : Engine → Call → Prop} {e : Engine} (calls : List Call)
    (hcalls : ∀ e, ∀ c ∈ calls, P e c) {e' : Engine} (h : Reaches P e e') :
    Reaches P e (e'.performAll calls) := by
  unfold Engine.performAll
  induction calls generalizing e' with
  | nil => exact h
  | cons c rest ih =>
    exact ih (fun e c hc => hcalls e c (List.mem_cons_of_mem _ hc))
      (h.perform c (hcalls _ c List.mem_cons_self))

/-! ### Effects -/

/-- The binding that a call makes. -/
def Builds (formula : String) (binding : Binding) : Call → Prop
  | .registerBinding _ f rows => f = formula ∧ Binding.ofRows? f rows = .ok binding
  | .registerBindingRecords _ f records => f = formula ∧ Binding.ofRecords? f records = .ok binding
  | _ => False

/-- What is true before a series gets another name. -/
structure Renames (e : Engine) (old new : String) (read readGroups : List ReadRecord)
    (store : Store) (moved : OrderedMap String FormulaRecord) : Prop where
  known : e.store.contains old = true ∨ e.formulas.contains old = true
  differ : old ≠ new
  storeFree : e.store.contains new = false
  formulasFree : e.formulas.contains new = false
  reads : e.readRecords e.formulas = .ok read
  readsGroups : e.readRecords e.groupFormulas = .ok readGroups
  unreferenced : ∀ r ∈ read ++ readGroups, r.references.contains new = false
  moves : e.moveSeries old new = .ok (store, moved)

/-- **What a call that succeeds makes of an engine**, but for the ledger. -/
inductive Effect (e : Engine) : Call → Engine → Prop
  | updateSeries {name : String} {update : Series} {date : InsertionDate} {aware : Bool}
      {effect : Option Series} {store : Store} (hname : e.formulas.contains name = false)
      (hstore : e.store.update name update date aware = .ok (effect, store)) :
      Effect e (.updateSeries name update date aware) { e with store := store }
  | updateGroup {name : String} {table : Frame} {date : InsertionDate} {store : Store}
      (hformulas : e.groupFormulas.contains name = false)
      (hbindings : e.bindings.contains name = false)
      (hstore : e.store.updateGroup name table date = .ok store) :
      Effect e (.updateGroup name table date) { e with store := store }
  | updateMetadata {name : String} {updates metadata : Metadata} {record : FormulaRecord}
      (hrecord : e.formulas.find? name = some record)
      (hmetadata : record.metadata.update updates = .ok metadata) :
      Effect e (.updateMetadata name updates)
        { e with formulas := e.formulas.insert name { record with metadata := metadata } }
  | registerFormula {name text : String} {options : RegisterOptions} {t : Tree}
      {aware : Option Bool} (ht : Tree.parse text = .ok t)
      (hstore : e.store.contains name = false)
      (hanswer : (e.validate name t .series options).answer = .ok aware) :
      Effect e (.registerFormula name text options)
        { e with formulas :=
            e.formulas.insert name (newRecord name t aware (e.formulas.find? name)) }
  | registerGroupFormula {name text : String} {options : RegisterOptions} {t : Tree}
      {aware : Option Bool} (ht : Tree.parse text = .ok t)
      (hstore : e.store.containsGroup name = false) (hbindings : e.bindings.contains name = false)
      (hanswer : (e.validate name t .table options).answer = .ok aware) :
      Effect e (.registerGroupFormula name text options)
        { e with groupFormulas :=
            e.groupFormulas.insert name (newRecord name t aware (e.groupFormulas.find? name)) }
  | bind {c : Call} {group formula : String} {binding : Binding} (hgroup : c.registers? = some group)
      (hbuilds : Builds formula binding c) (hformula : e.formulas.contains formula = true)
      (hstore : e.store.containsGroup group = false)
      (hformulas : e.groupFormulas.contains group = false) :
      Effect e c { e with bindings := e.bindings.insert group binding }
  | renameSame {name : String} : Effect e (.rename name name) e
  | rename {old new : String} {read readGroups : List ReadRecord} {store : Store}
      {moved : OrderedMap String FormulaRecord} (h : e.Renames old new read readGroups store moved) :
      Effect e (.rename old new)
        { e with
          store := store
          formulas := renameReferences old new read moved
          groupFormulas := renameReferences old new readGroups e.groupFormulas
          bindings := e.bindings.mapValues fun _ => renameInBinding old new }
  | deleteFormula {name : String} (hname : e.formulas.contains name = true) :
      Effect e (.delete name)
        { e with
          formulas := e.formulas.erase name
          bindings := e.bindings.filter fun _ b => b.formula ≠ name }
  | deleteSeries {name : String} {store : Store} (hname : e.formulas.contains name = false)
      (hstore : e.store.delete name = .ok store) : Effect e (.delete name) { e with store := store }
  | deleteBinding {name : String} (hname : e.bindings.contains name = true) :
      Effect e (.deleteGroup name) { e with bindings := e.bindings.erase name }
  | deleteGroupFormula {name : String} (hname : e.groupFormulas.contains name = true) :
      Effect e (.deleteGroup name) { e with groupFormulas := e.groupFormulas.erase name }
  | deleteGroup {name : String} {store : Store} (hstore : e.store.deleteGroup name = .ok store) :
      Effect e (.deleteGroup name) { e with store := store }

/-- **How a call can end**: refused, with nothing but records, or with an effect and records. -/
inductive Ends (e : Engine) (c : Call) (o : Outcome Unit) : Prop
  | refused (records : List LedgerRecord) (cause : EngineError) (h : o = ⟨e.noteAll records, .error cause⟩)
      (hrecords : c.Refused records)
  | accepted (e' : Engine) (records : List LedgerRecord) (h : o = ⟨e'.noteAll records, .ok ()⟩)
      (heffect : e.Effect c e') (hrecords : c.Accepted records)

/-- No call changes the registry. -/
theorem Effect.registry {e e' : Engine} {c : Call} (h : e.Effect c e') :
    e'.registry = e.registry := by
  cases h <;> rfl

theorem Effect.sources {e e' : Engine} {c : Call} (h : e.Effect c e') : e'.sources = e.sources := by
  cases h <;> rfl

theorem Effect.config {e e' : Engine} {c : Call} (h : e.Effect c e') : e'.config = e.config := by
  cases h <;> rfl

/-! ### How calls end -/

theorem noteAll_nil (e : Engine) : e.noteAll [] = e := by
  unfold noteAll
  rw [List.append_nil]

theorem noteAll_noteAll (e : Engine) (records more : List LedgerRecord) :
    (e.noteAll records).noteAll more = e.noteAll (records ++ more) := by
  unfold noteAll
  rw [List.append_assoc]

/-- A call that registers nothing may be refused with any records. -/
theorem Ends.of_refused {e : Engine} {c : Call} {o : Outcome Unit} (records : List LedgerRecord)
    (cause : EngineError) (hc : c.registers? = none) (h : o = ⟨e.noteAll records, .error cause⟩) :
    e.Ends c o :=
  .refused records cause h fun _ hname => absurd (hc.symm.trans hname) nofun

/-- A call that registers nothing may succeed with any records. -/
theorem Ends.of_accepted {e : Engine} {c : Call} {o : Outcome Unit} (e' : Engine)
    (records : List LedgerRecord) (hc : c.registers? = none)
    (h : o = ⟨e'.noteAll records, .ok ()⟩) (heffect : e.Effect c e') : e.Ends c o :=
  .accepted e' records h heffect fun _ hname => absurd (hc.symm.trans hname) nofun

/-- A refusal of a name is recorded last. -/
theorem Ends.of_refuse {e : Engine} {c : Call} {name : String} (hc : c.registers? = some name)
    (records : List LedgerRecord) (kind : IssueKind) (cause : EngineError) :
    e.Ends c ⟨e.noteAll (records ++ [e.refusal kind name cause]), .error cause⟩ :=
  .refused _ cause rfl fun _ hname' _ =>
    ⟨_, List.getLast?_concat, rfl, Option.some.inj (hc.symm.trans hname')⟩

/-- A name that is registered is recorded last. -/
theorem Ends.of_accept {e e' : Engine} {c : Call} {name : String} (hc : c.registers? = some name)
    (records : List LedgerRecord) (detail : String) (heffect : e.Effect c e') :
    e.Ends c ⟨(e'.noteAll records).accept .registered name detail, .ok ()⟩ := by
  refine .accepted e' (records ++ [e'.config.policy.record .allow .registered name detail]) ?_
    heffect fun name' hname' => ⟨_, List.getLast?_concat, rfl, rfl,
      Option.some.inj (hc.symm.trans hname')⟩
  rw [← noteAll_noteAll]
  rfl

/-- What the checks of a formula write into the ledger, if they fail. -/
theorem validate_error {e : Engine} {name : String} {t : Tree} {expected : TypeTag}
    {options : RegisterOptions} {cause : EngineError}
    (h : (e.validate name t expected options).answer = .error cause) :
    ∃ r, (e.validate name t expected options).records.getLast? = some r ∧ r.decision = .reject ∧
      r.subject = name := by
  unfold validate at h ⊢
  dsimp only at h ⊢
  split at h
  · exact ⟨_, rfl, rfl, rfl⟩
  · split at h
    · rename_i hunknown
      rw [if_pos hunknown]
      obtain ⟨hmissing, hreject⟩ := Bool.and_eq_true_iff.1 hunknown
      rw [if_neg (by simpa using hmissing)]
      exact ⟨_, rfl, beq_iff_eq.1 hreject, rfl⟩
    · rename_i hknown
      rw [if_neg hknown]
      split at h
      · exact ⟨_, List.getLast?_concat, rfl, rfl⟩
      · cases h

/-- What holds of a formula whose checks succeed: its operators are known, it has a type that fits,
and it can be expanded as if it had its name already. -/
theorem checks_of_validate {e : Engine} {name : String} {t : Tree} {expected : TypeTag}
    {options : RegisterOptions} {aware : Option Bool}
    (h : (e.validate name t expected options).answer = .ok aware) :
    t.checkOperators e.registry = .ok () ∧
      (∃ type, Typing.check e.registry expected t = .ok type) ∧
      ∃ u, t.expand (e.pendingTree? name t expected) [] e.config.maxDepth = .ok u := by
  unfold validate at h
  dsimp only at h
  cases hshape : e.checkShape name t expected with
  | error cause =>
    rw [hshape] at h
    cases h
  | ok _ =>
    unfold checkShape at hshape
    obtain ⟨_, hoperators, hshape⟩ := Result.bind_ok hshape
    obtain ⟨type, htype, hshape⟩ := Result.bind_ok hshape
    obtain ⟨u, hu, -⟩ := Result.bind_ok hshape
    exact ⟨Result.mapError_ok hoperators, ⟨type, Result.mapError_ok (Result.mapError_ok htype)⟩, u,
      Result.mapError_ok (Result.mapError_ok hu)⟩

/-- A call whose checks fail is refused with what they write. -/
theorem Ends.of_validate {e : Engine} {c : Call} {name : String} (hc : c.registers? = some name)
    {t : Tree} {expected : TypeTag} {options : RegisterOptions} {cause : EngineError}
    (h : (e.validate name t expected options).answer = .error cause) :
    e.Ends c ⟨e.noteAll (e.validate name t expected options).records, .error cause⟩ := by
  obtain ⟨r, hr, hdecision, hsubject⟩ := validate_error h
  exact .refused _ cause rfl fun _ hname' _ =>
    ⟨r, hr, hdecision, hsubject.trans (Option.some.inj (hc.symm.trans hname'))⟩

theorem ends_registerFormula (e : Engine) (name text : String) (options : RegisterOptions) :
    e.Ends (.registerFormula name text options) (e.registerFormula name text options) := by
  unfold registerFormula
  split
  · rename_i cause hparse
    refine .refused [] _ (by rw [noteAll_nil]) fun _ _ hread => ?_
    obtain ⟨t, ht⟩ := hread
    cases hparse.symm.trans ht
  · rename_i t ht
    split
    · exact .of_refuse rfl [] _ _
    · rename_i hstore
      split
      · exact .of_refuse rfl [] _ _
      · dsimp only
        split
        · rename_i cause hcause
          exact .of_validate rfl hcause
        · rename_i aware haware
          exact .of_accept rfl _ "formula"
            (.registerFormula ht (Bool.eq_false_iff.2 hstore) haware)

theorem ends_registerGroupFormula (e : Engine) (name text : String) (options : RegisterOptions) :
    e.Ends (.registerGroupFormula name text options)
      (e.registerGroupFormula name text options) := by
  unfold registerGroupFormula
  split
  · rename_i cause hparse
    refine .refused [] _ (by rw [noteAll_nil]) fun _ _ hread => ?_
    obtain ⟨t, ht⟩ := hread
    cases hparse.symm.trans ht
  · rename_i t ht
    split
    · exact .of_refuse rfl [] _ _
    · rename_i htaken
      rw [Bool.or_eq_true, not_or, Bool.not_eq_true, Bool.not_eq_true] at htaken
      split
      · exact .of_refuse rfl [] _ _
      · dsimp only
        split
        · rename_i cause hcause
          exact .of_validate rfl hcause
        · rename_i aware haware
          exact .of_accept rfl _ "group formula"
            (.registerGroupFormula ht htaken.1 htaken.2 haware)

theorem ends_bind (e : Engine) {c : Call} {group formula : String}
    {build : Except BindingFault Binding} (hc : c.registers? = some group)
    (hbuild : ∀ binding, build = .ok binding → Builds formula binding c) :
    e.Ends c (e.bind group formula build) := by
  unfold bind
  split
  · exact .of_refuse hc [] _ _
  · rename_i hformula
    split
    · exact .of_refuse hc [] _ _
    · rename_i htaken
      rw [Bool.or_eq_true, not_or, Bool.not_eq_true, Bool.not_eq_true] at htaken
      rw [Bool.not_eq_true', Bool.not_eq_false] at hformula
      cases build with
      | error fault => exact .of_refuse hc [] _ _
      | ok binding =>
        have heffect : e.Effect c { e with bindings := e.bindings.insert group binding } :=
          .bind hc (hbuild binding rfl) hformula htaken.1 htaken.2
        have hends := Ends.of_accept hc [] "bindings" heffect
        rw [noteAll_nil] at hends
        exact hends

theorem ends_rename (e : Engine) (old new : String) :
    e.Ends (.rename old new) (e.rename old new) := by
  unfold rename
  split
  · exact .of_refused [] _ rfl (by rw [noteAll_nil])
  · rename_i hknown
    split
    · rename_i heq
      subst heq
      exact .of_accepted e [] rfl (by rw [noteAll_nil]) .renameSame
    · rename_i hne
      split
      · exact .of_refused _ _ rfl rfl
      · rename_i hfree
        split
        · exact .of_refused [] _ rfl (by rw [noteAll_nil])
        · exact .of_refused [] _ rfl (by rw [noteAll_nil])
        · rename_i read readGroups hread hgroups
          split
          · rename_i hnil
            unfold renameChecked
            split
            · exact .of_refused [] _ rfl (by rw [noteAll_nil])
            · rename_i store moved hmove
              rw [Bool.and_eq_true, Bool.not_eq_true', Bool.not_eq_true', not_and_or,
                Bool.not_eq_false, Bool.not_eq_false] at hknown
              rw [Bool.or_eq_true, not_or, Bool.not_eq_true, Bool.not_eq_true] at hfree
              rw [List.map_eq_nil_iff, List.filter_eq_nil_iff] at hnil
              exact .of_accepted _ _ rfl rfl (.rename {
                known := hknown
                differ := hne
                storeFree := hfree.1
                formulasFree := hfree.2
                reads := hread
                readsGroups := hgroups
                unreferenced := fun r hr => Bool.eq_false_iff.2 (hnil r hr)
                moves := hmove })
          · exact .of_refused _ _ rfl rfl

theorem ends_delete (e : Engine) (name : String) : e.Ends (.delete name) (e.delete name) := by
  unfold delete
  split
  · rename_i hname
    exact .of_accepted _ _ rfl rfl (.deleteFormula hname)
  · rename_i hname
    split
    · exact .of_refused [] _ rfl (by rw [noteAll_nil])
    · rename_i store hstore
      exact .of_accepted _ _ rfl rfl (.deleteSeries (Bool.eq_false_iff.2 hname) hstore)

theorem ends_deleteGroup (e : Engine) (name : String) :
    e.Ends (.deleteGroup name) (e.deleteGroup name) := by
  unfold deleteGroup
  split
  · rename_i hname
    exact .of_accepted _ _ rfl rfl (.deleteBinding hname)
  · split
    · rename_i hname
      exact .of_accepted _ _ rfl rfl (.deleteGroupFormula hname)
    · split
      · exact .of_refused [] _ rfl (by rw [noteAll_nil])
      · rename_i store hstore
        exact .of_accepted _ _ rfl rfl (.deleteGroup hstore)

theorem ends_updateSeries (e : Engine) (name : String) (update : Series) (date : InsertionDate)
    (aware : Bool) :
    e.Ends (.updateSeries name update date aware) (e.updateSeries name update date aware).done := by
  unfold updateSeries
  split
  · exact .of_refused [] _ rfl (by rw [noteAll_nil]; rfl)
  · rename_i hname
    split
    · exact .of_refused [] _ rfl (by rw [noteAll_nil]; rfl)
    · rename_i effect store hstore
      exact .of_accepted _ [] rfl (by rw [noteAll_nil]; rfl)
        (.updateSeries (Bool.eq_false_iff.2 hname) hstore)

theorem ends_updateGroup (e : Engine) (name : String) (table : Frame) (date : InsertionDate) :
    e.Ends (.updateGroup name table date) (e.updateGroup name table date) := by
  unfold updateGroup
  split
  · exact .of_refused [] _ rfl (by rw [noteAll_nil])
  · rename_i htaken
    rw [Bool.or_eq_true, not_or, Bool.not_eq_true, Bool.not_eq_true] at htaken
    split
    · exact .of_refused [] _ rfl (by rw [noteAll_nil])
    · rename_i store hstore
      exact .of_accepted _ [] rfl (by rw [noteAll_nil]) (.updateGroup htaken.1 htaken.2 hstore)

theorem ends_updateMetadata (e : Engine) (name : String) (updates : Metadata) :
    e.Ends (.updateMetadata name updates) (e.updateMetadata name updates) := by
  unfold updateMetadata
  split
  · exact .of_refused [] _ rfl (by rw [noteAll_nil])
  · rename_i record hrecord
    split
    · exact .of_refused [] _ rfl (by rw [noteAll_nil])
    · rename_i metadata hmetadata
      exact .of_accepted _ [] rfl (by rw [noteAll_nil]) (.updateMetadata hrecord hmetadata)

/-- **Every call ends in one of two ways.** -/
theorem ends_perform (e : Engine) (c : Call) : e.Ends c (e.perform c) := by
  cases c with
  | updateSeries name update date aware => exact e.ends_updateSeries name update date aware
  | updateGroup name table date => exact e.ends_updateGroup name table date
  | updateMetadata name updates => exact e.ends_updateMetadata name updates
  | registerFormula name text options => exact e.ends_registerFormula name text options
  | registerGroupFormula name text options => exact e.ends_registerGroupFormula name text options
  | registerBinding group formula rows => exact e.ends_bind rfl fun _ h => ⟨rfl, h⟩
  | registerBindingRecords group formula records => exact e.ends_bind rfl fun _ h => ⟨rfl, h⟩
  | rename old new => exact e.ends_rename old new
  | delete name => exact e.ends_delete name
  | deleteGroup name => exact e.ends_deleteGroup name

/-! ### Invariants -/

/-- **What effects keep holds of all engines that are reached**, if it is not about the ledger and
the sources. -/
theorem Reaches.invariant {P : Engine → Call → Prop} {I : Engine → Prop}
    (hledger : ∀ e records, I e → I (e.noteAll records))
    (hsource : ∀ e source, I e → I (e.addSource source))
    (heffect : ∀ e c e', P e c → e.Effect c e' → I e → I e') {e e' : Engine}
    (h : Reaches P e e') (he : I e) : I e' := by
  induction h with
  | refl => exact he
  | @perform e'' _ c hc ih =>
    rcases e''.ends_perform c with ⟨records, cause, heq, -⟩ | ⟨e₁, records, heq, h₁, -⟩
    · rw [heq]
      exact hledger _ records ih
    · rw [heq]
      exact hledger _ records (heffect _ c e₁ hc h₁ ih)
  | addSource _ source ih => exact hsource _ source ih

/-- Calls with a property have all properties that follow from it. -/
theorem Reaches.weaken {P Q : Engine → Call → Prop} {e e' : Engine} (h : Reaches P e e')
    (hPQ : ∀ e c, P e c → Q e c) : Reaches Q e e' := by
  induction h with
  | refl => exact .refl
  | perform _ c hc ih => exact ih.perform c (hPQ _ c hc)
  | addSource _ source ih => exact ih.addSource source

/-! ### First engines -/

/-- A day of the year 2024, counted from zero. -/
def dayOf2024 (n : Nat) : Stamp := .within (1704067200 + 86400 * n) 0

/-- The engine over the empty store, with given settings. -/
def overNothing (config : Config) : Engine :=
  ⟨config, .builtin, .empty, .empty, .empty, .empty, [], []⟩

theorem create_overNothing {config : Config} (h : config.validate = .ok config) :
    create .empty config .builtin = .ok (overNothing config) := by
  rw [create, h]
  rfl

theorem create_initial : create .empty .initial .builtin = .ok (overNothing .initial) :=
  create_overNothing rfl

end Engine

end SeriesAlgebra
