import EpochConsensus.Config.Document
import EpochConsensus.Proofs.Json
import EpochConsensus.Proofs.Roster

/-! # Documents and settings

A configuration is given in two ways, as settings made one after the other and as a document, each
with its own idea of what a field is called, what is left out and what a value looks like.  A text
is a `Document` of some values when it is an object with exactly these members, in this order and
with any white space and escapes.  Every such text is read as the draft of its members
(`Draft.read?_of_document`), and the text that is written for a configuration is one of them
(`document_write`).

A draft has a place of its own for each of the fourteen fields, and fills them in by itself.  It
`Agrees` with the settings that have the same fields set; putting a value and setting it keep that,
and then both are filled in to the same configuration (`Draft.config_eq`).  In settings the order
does not matter (`Settings.ofEntries_perm`), and so it does not in documents.
-/
namespace EpochConsensus

open Config (Field)
open Json (Blank Ends Items More Opens Quoted Reads)

/-! ### Values -/

/-- The decimal digits of a number. -/
def SpellsNat (n : Nat) (text : List Char) : Prop := text = (writeNat n).toList

def SpellsBool (b : Bool) (text : List Char) : Prop := text = (writeBool b).toList

/-- A string, with any escapes. -/
def SpellsName (name : String) (text : List Char) : Prop :=
  ∃ t, Quoted name.toList t ∧ text = '"' :: t

/-- A list of the members of a set, in any order and with repetitions. -/
def SpellsProcesses (s : ProcessSet) (text : List Char) : Prop :=
  ∃ ps t, (∀ p, p ∈ ps ↔ s.contains p = true) ∧
    Items ']' (fun p : ProcessId => SpellsNat p.toNat) ps t ∧ text = '[' :: t

theorem toList_writeNat (n : Nat) : (writeNat n).toList = Nat.toDigits 10 n := Nat.toList_repr

theorem toList_quote (s : String) : (quote s).toList = '"' :: (s.toList ++ ['"']) := by
  simp [quote]

namespace SpellsNat

variable {n : Nat} {text : List Char}

theorem opens (spells : SpellsNat n text) : Opens text := by
  obtain ⟨d, ds, hds⟩ := List.exists_cons_of_ne_nil
    (Nat.toDigits_ne_nil : Nat.toDigits 10 n ≠ [])
  have hd : d.isDigit = true :=
    Nat.isDigit_of_mem_toDigits (by decide) (by decide) (hds ▸ List.mem_cons_self)
  refine ⟨d, ds, spells.trans ((toList_writeNat n).trans hds), ?_, ?_⟩
  · cases hblank : Json.isBlank d with
    | false => rfl
    | true => exact absurd hd (by simp [Json.isDigit_of_isBlank hblank])
  · rintro rfl
    exact absurd hd (by decide)

theorem reads {limit : Nat} (spells : SpellsNat n text) (h : n ≤ limit) :
    Reads (readNat? limit) text n := by
  intro rest ends
  rw [spells, toList_writeNat, readNat?, Json.integer?_toDigits n ends]
  simp [Json.ofDigits_toDigits, h]

theorem reads_process {p : ProcessId} (spells : SpellsNat p.toNat text) :
    Reads readProcess? text p := by
  intro rest ends
  have hread := spells.reads (Nat.le_sub_one_of_lt p.toNat_lt) rest ends
  simp [readProcess?, hread]

end SpellsNat

namespace SpellsBool

variable {b : Bool} {text : List Char}

theorem opens (spells : SpellsBool b text) : Opens text := by
  cases b with
  | false => exact ⟨'f', _, spells, rfl, by decide⟩
  | true => exact ⟨'t', _, spells, rfl, by decide⟩

theorem reads (spells : SpellsBool b text) : Reads readBool? text b := by
  intro rest _
  subst spells
  cases b <;> rfl

end SpellsBool

namespace SpellsName

variable {name : String} {text : List Char}

theorem opens (spells : SpellsName name text) : Opens text := by
  obtain ⟨t, -, rfl⟩ := spells
  exact ⟨'"', t, rfl, rfl, by decide⟩

/-- A name is read as the choice that it is found to be the name of. -/
theorem reads {α : Type} {all : List α} {name : α → String} {a : α}
    (spells : SpellsName (name a) text)
    (found : (all.find? fun b => (name b).toList == (name a).toList) = some a) :
    Reads (readChoice? all name) text a := by
  intro rest _
  obtain ⟨t, quoted, rfl⟩ := spells
  rw [List.cons_append, readChoice?, Json.string?_of_quoted quoted]
  simp [found]

theorem quote (bare : name.toList.all Json.isBare = true) :
    SpellsName name (quote name).toList :=
  ⟨_, Json.quoted_of_bare bare, toList_quote name⟩

end SpellsName

namespace SpellsProcesses

variable {s : ProcessSet} {text : List Char}

theorem opens (spells : SpellsProcesses s text) : Opens text := by
  obtain ⟨ps, t, -, -, rfl⟩ := spells
  exact ⟨'[', t, rfl, rfl, by decide⟩

theorem reads (spells : SpellsProcesses s text) : Reads readProcesses? text s := by
  intro rest _
  obtain ⟨ps, t, members, items, rfl⟩ := spells
  have hread := Json.items?_of_items items
    (fun p text h => ⟨SpellsNat.reads_process h, SpellsNat.opens h⟩) rest
  rw [List.cons_append, readProcesses?, hread]
  simp [ProcessSet.ofList_eq_iff.mpr members]

theorem write (s : ProcessSet) : SpellsProcesses s (writeProcesses s).toList := by
  refine ⟨s.processes, _, fun p => s.mem_processes, Json.items_intercalate (fun p _ => rfl), ?_⟩
  simp [writeProcesses, Function.comp_def]

end SpellsProcesses

theorem Model.find?_name (m : Model) :
    (Model.all.find? fun b => b.name.toList == m.name.toList) = some m := by
  cases m <;> decide

theorem Attack.find?_name (a : Attack) :
    (Attack.all.find? fun b => b.name.toList == a.name.toList) = some a := by
  cases a <;> decide

/-! ### Fields -/

namespace Config

/-- A value for one of the fields. -/
abbrev Entry := (f : Field) × f.Value

namespace Field

/-- Numbers take 64 bits. -/
def Fits : (f : Field) → f.Value → Prop
  | .maxActiveEpochs, n | .maxEpochToStart, n | .blockchainSize, n | .messageQueueSize, n
  | .timeoutQueueSize, n | .pendingMessagesLimit, n | .smallDelta, n | .bigDelta, n
  | .verifierCacheSize, n => LT.lt (α := Nat) n UInt64.size
  | .scheduleTimeouts, _ | .fastPathEnabled, _ | .model, _ | .byzantineAttack, _
  | .byzantines, _ => True

theorem fits_default (f : Field) : f.Fits (default.get f) := by
  cases f <;> simp only [Fits, get, default] <;> decide

/-- The ways to write a field's value. -/
def Spells : (f : Field) → f.Value → List Char → Prop
  | .maxActiveEpochs, n | .maxEpochToStart, n | .blockchainSize, n | .messageQueueSize, n
  | .timeoutQueueSize, n | .pendingMessagesLimit, n | .smallDelta, n | .bigDelta, n
  | .verifierCacheSize, n => SpellsNat n
  | .scheduleTimeouts, b | .fastPathEnabled, b => SpellsBool b
  | .model, m => SpellsName (Model.name m)
  | .byzantineAttack, a => SpellsName (Attack.name a)
  | .byzantines, s => SpellsProcesses s

variable {f : Field} {v : f.Value} {text : List Char}

/-- Every way to write a value that fits is read as this value. -/
theorem Spells.reads (spells : f.Spells v text) (fits : f.Fits v) : Reads f.read? text v := by
  have hnat {n : Nat} (spells : SpellsNat n text) (fits : n < UInt64.size) :
      Reads (readNat? (UInt64.size - 1)) text n := spells.reads (Nat.le_sub_one_of_lt fits)
  cases f with
  | scheduleTimeouts | fastPathEnabled => exact SpellsBool.reads spells
  | model => exact SpellsName.reads spells (Model.find?_name v)
  | byzantineAttack => exact SpellsName.reads spells (Attack.find?_name v)
  | byzantines => exact SpellsProcesses.reads spells
  | _ => exact hnat spells fits

theorem Spells.opens (spells : f.Spells v text) : Opens text := by
  cases f with
  | scheduleTimeouts | fastPathEnabled => exact SpellsBool.opens spells
  | model | byzantineAttack => exact SpellsName.opens spells
  | byzantines => exact SpellsProcesses.opens spells
  | _ => exact SpellsNat.opens spells

/-- What is written for a value is one of the ways to write it. -/
theorem spells_write (f : Field) (v : f.Value) : f.Spells v (f.write v).toList := by
  cases f with
  | model => exact SpellsName.quote (by cases v <;> decide)
  | byzantineAttack => exact SpellsName.quote (by cases v <;> decide)
  | byzantines => exact SpellsProcesses.write v
  | _ => rfl

theorem quoted_name (f : Field) : Quoted f.name.toList (f.name.toList ++ ['"']) := by
  refine Json.quoted_of_bare ?_
  cases f <;> decide

end Field

/-! ### Documents -/

/-- The ways to write a member of an object. -/
inductive Member : Entry → List Char → Prop
  | mk {f : Field} {v : f.Value} {key ws ws' s : List Char} (name : Quoted f.name.toList key)
    (before : Blank ws) (after : Blank ws') (value : f.Spells v s) :
    Member ⟨f, v⟩ ('"' :: (key ++ (ws ++ ':' :: (ws' ++ s))))

/-- The text is an object with exactly these members, in this order. -/
def Document (members : List Entry) (text : String) : Prop :=
  ∃ ws t ws', Blank ws ∧ Items '\x7d' Member members t ∧ Blank ws' ∧
    text.toList = ws ++ '\x7b' :: (t ++ ws')

def writeMember (e : Entry) : String := quote e.1.name ++ ":" ++ e.1.write e.2

theorem member_writeMember (e : Entry) : Member e (writeMember e).toList := by
  have h := Member.mk e.1.quoted_name Json.blank_nil Json.blank_nil (e.1.spells_write e.2)
  simpa [writeMember, toList_quote] using h

/-- The object with these members, without white space and escapes. -/
def writeMembers (members : List Entry) : String :=
  "\x7b" ++ ",".intercalate (members.map writeMember) ++ "\x7d"

theorem document_writeMembers (members : List Entry) :
    Document members (writeMembers members) := by
  refine ⟨[], _, [], Json.blank_nil,
    Json.items_intercalate fun e _ => member_writeMember e, Json.blank_nil, ?_⟩
  simp [writeMembers, Function.comp_def]

/-- Every field of a configuration with its value. -/
def entries (c : Config) : List Entry := Field.all.map fun f => ⟨f, c.get f⟩

theorem nodup_entries (c : Config) : (c.entries.map Sigma.fst).Nodup := by
  have hfields : c.entries.map Sigma.fst = Field.all := by simp [entries, Function.comp_def]
  rw [hfields]
  decide

theorem writeMembers_entries (c : Config) : writeMembers c.entries = c.write := by
  simp [writeMembers, writeMember, write, entries, Function.comp_def]

theorem document_write (c : Config) : Document c.entries c.write :=
  c.writeMembers_entries ▸ document_writeMembers c.entries

end Config

namespace Settings

open Config (Entry Member Document)

/-! ### One setting after the other -/

/-- Makes some settings one after the other. -/
def setAll (s : Settings) (es : List Entry) : Settings := es.foldl (fun s e => s.set e.1 e.2) s

def ofEntries (es : List Entry) : Settings := empty.setAll es

theorem set_comm (s : Settings) {f g : Field} (v : f.Value) (w : g.Value) (h : f ≠ g) :
    (s.set f v).set g w = (s.set g w).set f v := by
  funext k
  by_cases hf : f = k
  · subst hf
    rw [set_self, set_of_ne _ _ (Ne.symm h), set_self]
  · by_cases hg : g = k
    · subst hg
      rw [set_self, set_of_ne _ _ h, set_self]
    · rw [set_of_ne _ _ hg, set_of_ne _ _ hf, set_of_ne _ _ hf, set_of_ne _ _ hg]

/-- **Settings of different fields may be made in any order.** -/
theorem ofEntries_perm {es es' : List Entry} (perm : es.Perm es')
    (distinct : (es.map Sigma.fst).Nodup) : ofEntries es = ofEntries es' := by
  refine perm.foldl_eq' (fun e he e' he' s => ?_) empty
  by_cases h : e.1 = e'.1
  · rw [List.inj_on_of_nodup_map distinct he he' h]
  · exact s.set_comm e.2 e'.2 h

theorem setAll_of_notMem (s : Settings) {f : Field} {es : List Entry}
    (h : f ∉ es.map Sigma.fst) : s.setAll es f = s f := by
  induction es generalizing s with
  | nil => rfl
  | cons e es ih =>
    rw [List.map_cons, List.mem_cons, not_or] at h
    obtain ⟨hne, hes⟩ := h
    exact (ih (s.set e.1 e.2) hes).trans (set_of_ne _ _ (Ne.symm hne))

theorem setAll_of_mem (s : Settings) {e : Entry} {es : List Entry}
    (distinct : (es.map Sigma.fst).Nodup) (h : e ∈ es) : s.setAll es e.1 = some e.2 := by
  induction es generalizing s with
  | nil => cases h
  | cons e' es ih =>
    obtain ⟨hother, hes⟩ := List.nodup_cons.mp (List.map_cons ▸ distinct)
    rcases List.mem_cons.mp h with rfl | h
    · exact (setAll_of_notMem (s.set e.1 e.2) hother).trans (s.set_self e.1 e.2)
    · exact ih (s.set e'.1 e'.2) hes h

/-- A field has the value that it was set to. -/
theorem get_config_of_mem {e : Entry} {es : List Entry} (distinct : (es.map Sigma.fst).Nodup)
    (h : e ∈ es) : (ofEntries es).config.get e.1 = e.2 := by
  rw [config, Config.get_ofValues, ofEntries, setAll_of_mem _ distinct h]
  rfl

/-- A field that was not set has its default. -/
theorem get_config_of_notMem {f : Field} {es : List Entry} (h : f ∉ es.map Sigma.fst) :
    (ofEntries es).config.get f = Config.default.get f := by
  rw [config, Config.get_ofValues, ofEntries, setAll_of_notMem _ h]
  rfl

/-- With every field set there is no default to fill in. -/
theorem config_ofEntries_entries (c : Config) : (ofEntries c.entries).config = c := by
  have hget : (ofEntries c.entries).config.get = c.get := by
    funext f
    exact get_config_of_mem (e := ⟨f, c.get f⟩) c.nodup_entries
      (List.mem_map.mpr ⟨f, f.mem_all, rfl⟩)
  rw [← Config.ofValues_get (ofEntries c.entries).config, hget, Config.ofValues_get]

end Settings

namespace Config

namespace Draft

/-! ### Drafts -/

/-- A draft has the values that are set, and no others. -/
def Agrees (d : Draft) (s : Settings) : Prop := ∀ f, d.get? f = s f

theorem get?_put_self (d : Draft) (f : Field) (v : f.Value) : (d.put f v).get? f = some v := by
  cases f <;> rfl

theorem get?_put_of_ne (d : Draft) {f g : Field} (v : f.Value) (h : f ≠ g) :
    (d.put f v).get? g = d.get? g := by
  cases f <;> cases g <;> first | rfl | exact absurd rfl h

theorem agrees_empty : empty.Agrees Settings.empty := by
  intro f
  cases f <;> rfl

theorem Agrees.put {d : Draft} {s : Settings} (h : d.Agrees s) (f : Field) (v : f.Value) :
    (d.put f v).Agrees (s.set f v) := by
  intro g
  by_cases hg : f = g
  · subst hg
    rw [get?_put_self, Settings.set_self]
  · rw [get?_put_of_ne d v hg, Settings.set_of_ne s v hg]
    exact h g

/-- **Drafts and settings are filled in alike**, field by field. -/
theorem config_eq {d : Draft} {s : Settings} (h : d.Agrees s) : d.config = s.config := by
  obtain rfl : d.get? = s := funext h
  rfl

/-- Puts some values one after the other. -/
def putAll (d : Draft) (es : List Entry) : Draft := es.foldl (fun d e => d.put e.1 e.2) d

def ofEntries (es : List Entry) : Draft := empty.putAll es

theorem agrees_ofEntries (es : List Entry) : (ofEntries es).Agrees (Settings.ofEntries es) := by
  suffices h : ∀ (d : Draft) (s : Settings), d.Agrees s → (d.putAll es).Agrees (s.setAll es) from
    h empty Settings.empty agrees_empty
  induction es with
  | nil => exact fun _ _ h => h
  | cons e es ih => exact fun d s h => ih (d.put e.1 e.2) (s.set e.1 e.2) (h.put e.1 e.2)

/-! ### Reading a document -/

theorem field?_name (f : Field) : field? f.name.toList = some f := by
  cases f <;> decide

/-- A member is read, after its opening quote, as one more value. -/
theorem exists_readMember? {e : Entry} {text : List Char} (member : Member e text)
    (fits : e.1.Fits e.2) : ∃ rest, text = '"' :: rest ∧
      ∀ (rounds : Nat) (d : Draft) (more : List Char), d.get? e.1 = none → Ends more →
        d.readMember? rounds (rest ++ more) = some (d.put e.1 e.2, more) := by
  obtain @⟨f, v, key, ws, ws', t, name, before, after, value⟩ := member
  refine ⟨_, rfl, fun rounds d more unset ends => ?_⟩
  obtain ⟨c, cs, rfl, hc, -⟩ := value.opens
  have hread := value.reads fits more ends
  rw [List.cons_append] at hread
  rw [readMember?, List.append_assoc, Json.string?_of_quoted name]
  simp only [Option.bind_eq_bind, Option.bind_some, List.append_assoc, List.cons_append,
    Json.token?_append (c := ':') before rfl, Json.skipBlank_append after hc, field?_name, unset]
  simp [hread]

/-- A value leaves the fields of other members open. -/
theorem put_unset {d : Draft} {e : Entry} {es : List Entry} (he : e.1 ∉ es.map Sigma.fst)
    (unset : ∀ e' ∈ es, d.get? e'.1 = none) : ∀ e' ∈ es, (d.put e.1 e.2).get? e'.1 = none := by
  intro e' he'
  have hne : e.1 ≠ e'.1 := fun h => he (List.mem_map.mpr ⟨e', he', h.symm⟩)
  rw [get?_put_of_ne _ _ hne]
  exact unset e' he'

theorem readMembers?_of_more {members : List Entry} {text : List Char}
    (more : More '\x7d' Member members text) (distinct : (members.map Sigma.fst).Nodup)
    (fits : ∀ e ∈ members, e.1.Fits e.2) {rounds : Nat} (enough : members.length < rounds)
    {d : Draft} (unset : ∀ e ∈ members, d.get? e.1 = none) (rest : List Char) :
    readMembers? rounds d (text ++ rest) = some (d.putAll members, rest) := by
  induction more generalizing rounds d with
  | close blank =>
    obtain ⟨rounds, rfl⟩ := Nat.exists_eq_add_one_of_ne_zero (Nat.ne_of_gt enough)
    rw [readMembers?, List.append_assoc, List.singleton_append, Json.skipBlank_append blank rfl]
    rfl
  | @item e es ws ws' m t before after member more ih =>
    obtain ⟨rounds, rfl⟩ := Nat.exists_eq_add_one_of_ne_zero (Nat.ne_zero_of_lt enough)
    obtain ⟨he, hes⟩ := List.nodup_cons.mp (List.map_cons ▸ distinct)
    obtain ⟨hunset, hunsets⟩ := List.forall_mem_cons.mp unset
    obtain ⟨hfits, hfitsAll⟩ := List.forall_mem_cons.mp fits
    obtain ⟨m, rfl, hread⟩ := exists_readMember? member hfits
    have hfirst := hread rounds d (t ++ rest) hunset (more.ends rfl rest)
    have hrest := ih hes hfitsAll (Nat.lt_of_succ_lt_succ enough) (put_unset he hunsets)
    rw [readMembers?, List.append_assoc, List.cons_append, Json.skipBlank_append before rfl]
    simp only [Option.bind_eq_bind, Option.bind_some, List.append_assoc, List.cons_append,
      Json.token?_append (c := '"') after rfl, hfirst, hrest]
    rfl

theorem readObject?_of_items {members : List Entry} {text : List Char}
    (items : Items '\x7d' Member members text) (distinct : (members.map Sigma.fst).Nodup)
    (fits : ∀ e ∈ members, e.1.Fits e.2) (rest : List Char) :
    readObject? (text ++ rest) = some (ofEntries members, rest) := by
  unfold readObject?
  cases items with
  | none blank =>
    rw [List.append_assoc, List.singleton_append, Json.skipBlank_append blank rfl]
    rfl
  | @some e es ws m t blank member more =>
    obtain ⟨he, hes⟩ := List.nodup_cons.mp (List.map_cons ▸ distinct)
    obtain ⟨hfits, hfitsAll⟩ := List.forall_mem_cons.mp fits
    obtain ⟨m, rfl, hread⟩ := exists_readMember? member hfits
    have hunsets := put_unset (d := empty) he fun e _ => agrees_empty e.1
    have hlong : es.length < (m ++ (t ++ rest)).length := by
      have hmore := more.length_lt
      simp only [List.length_append]
      omega
    have hfirst := hread (m ++ (t ++ rest)).length empty (t ++ rest) (agrees_empty e.1)
      (more.ends rfl rest)
    have hrest := readMembers?_of_more more hes hfitsAll hlong hunsets rest
    rw [List.append_assoc, List.append_assoc, List.cons_append, Json.skipBlank_append blank rfl]
    simp only [Option.bind_eq_bind, Option.bind_some, hfirst, hrest]
    rfl

/-- **A document is read as the draft of its members.** -/
theorem read?_of_document {members : List Entry} {text : String} (document : Document members text)
    (distinct : (members.map Sigma.fst).Nodup) (fits : ∀ e ∈ members, e.1.Fits e.2) :
    read? text = some (ofEntries members) := by
  obtain ⟨ws, t, ws', before, items, after, htext⟩ := document
  have hread := readObject?_of_items items distinct fits ws'
  rw [read?, htext, Json.skipBlank_append before rfl]
  simp only [Option.bind_eq_bind, hread, Option.bind_some, Json.skipBlank_eq_nil after]
  rfl

end Draft

/-- A document gives what the settings of its members give. -/
theorem parse_of_document {members : List Entry} {text : String} (document : Document members text)
    (distinct : (members.map Sigma.fst).Nodup) (fits : ∀ e ∈ members, e.1.Fits e.2) :
    parse text = (Settings.ofEntries members).validConfig := by
  have hread := Draft.read?_of_document document distinct fits
  have hconfig := Draft.config_eq (Draft.agrees_ofEntries members)
  simp only [parse, hread, hconfig, Settings.validConfig]

/-- **Documents and settings agree.**  Let some fields be set, in any order, to values that fit.
Any object with the same members, in any order and in any spelling, gives the same result: the
configuration with these values and the defaults elsewhere, or the refusal of its first zero.
Every list of members has such a text.  What is written for a valid configuration gives it back. -/
theorem parse_agrees (settings : List Entry) (distinct : (settings.map Sigma.fst).Nodup)
    (fits : ∀ e ∈ settings, e.1.Fits e.2) :
    (∀ members text, members.Perm settings → Document members text →
      parse text = (Settings.ofEntries settings).validConfig) ∧
    ((∀ e ∈ settings, (Settings.ofEntries settings).config.get e.1 = e.2) ∧
      ∀ f ∉ settings.map Sigma.fst, (Settings.ofEntries settings).config.get f = default.get f) ∧
    (∀ members, Document members (writeMembers members)) ∧
    ∀ c : Config, (∀ f : Field, f.Fits (c.get f)) → c.validate = .ok () →
      Document c.entries c.write ∧ parse c.write = .ok c := by
  refine ⟨fun members text perm document => ?_,
    ⟨fun e he => Settings.get_config_of_mem distinct he,
      fun f hf => Settings.get_config_of_notMem hf⟩,
    document_writeMembers, fun c hfits valid => ⟨c.document_write, ?_⟩⟩
  · have hdistinct : (members.map Sigma.fst).Nodup := (perm.map Sigma.fst).nodup_iff.mpr distinct
    rw [parse_of_document document hdistinct fun e he => fits e (perm.mem_iff.mp he),
      Settings.ofEntries_perm perm hdistinct]
  · rw [parse_of_document c.document_write c.nodup_entries fun e he => ?_, Settings.validConfig,
      Settings.config_ofEntries_entries, valid]
    · rfl
    · obtain ⟨f, -, rfl⟩ := List.mem_map.mp he
      exact hfits f

/-- Three fields in another order, with white space and an escape; two of them may not be zero. -/
theorem parse_agrees_reordered :
    parse " \x7b\"small_delta\":0 ,\n\"model\" : \"\\u0064elta\",\"blockchain_size\":0\x7d" =
      .error (.config (.zero "blockchain_size")) ∧
    parse default.write = .ok default := by
  have agrees := parse_agrees [⟨.blockchainSize, (0 : Nat)⟩, ⟨.smallDelta, (0 : Nat)⟩,
    ⟨.model, Model.delta⟩] (by decide) (by simp [Field.Fits])
  have blank : Blank [' '] ∧ Blank ['\n'] := by decide
  have delta : Quoted (Model.name .delta).toList
      ['\\', 'u', '0', '0', '6', '4', 'e', 'l', 't', 'a', '"'] :=
    .char (.unit (u := 100) rfl rfl rfl)
      (Json.quoted_of_bare (by decide : ['e', 'l', 't', 'a'].all Json.isBare = true))
  have smallDelta : Member ⟨.smallDelta, (0 : Nat)⟩ _ :=
    .mk (Field.quoted_name _) Json.blank_nil Json.blank_nil rfl
  have model : Member ⟨.model, Model.delta⟩ _ :=
    .mk (Field.quoted_name _) blank.1 blank.1 ⟨_, delta, rfl⟩
  have blockchainSize : Member ⟨.blockchainSize, (0 : Nat)⟩ _ :=
    .mk (Field.quoted_name _) Json.blank_nil Json.blank_nil rfl
  have members : Items '\x7d' Member _ _ :=
    .some Json.blank_nil smallDelta (.item blank.1 blank.2 model
      (.item Json.blank_nil Json.blank_nil blockchainSize (.close Json.blank_nil)))
  have document : Document [⟨.smallDelta, (0 : Nat)⟩, ⟨.model, Model.delta⟩,
      ⟨.blockchainSize, (0 : Nat)⟩]
      " \x7b\"small_delta\":0 ,\n\"model\" : \"\\u0064elta\",\"blockchain_size\":0\x7d" :=
    ⟨[' '], _, [], blank.1, members, Json.blank_nil, by decide⟩
  exact ⟨agrees.1 _ _ (List.perm_append_singleton _ _) document,
    (agrees.2.2.2 default Field.fits_default rfl).2⟩

end Config

end EpochConsensus
