import Mathlib.Data.List.Pairwise
import Mathlib.Data.Multiset.Basic
import Mathlib.Data.Multiset.AddSub
import Nntp.Proto.Overview

/-!
# Columns of an overview

A server announces the fields of its overview lines in any order. A column is a line of the announcement
together with the value at its place in an overview line, and what `OverviewRecord::parse` makes of a value
is decided by the name of its column: moving columns about changes the order of the extra fields only.
-/

namespace Nntp.Proto

/-! ## Slots -/

/-- Where a record keeps a value. -/
inductive Slot where
  | subject
  | author
  | date
  | messageId
  | references
  | bytes
  | lines
  | extra
  deriving DecidableEq, Repr

namespace Slot

/-- The name a slot goes by. -/
def name : Slot → String
  | subject => "subject"
  | author => "from"
  | date => "date"
  | messageId => "message-id"
  | references => "references"
  | bytes => "bytes"
  | lines => "lines"
  | extra => ""

/-- The slot of a field. -/
def of (field : OverviewField) : Slot :=
  if field.is "subject" then subject
  else if field.is "from" then author
  else if field.is "date" then date
  else if field.is "message-id" then messageId
  else if field.is "references" then references
  else if field.is "bytes" then bytes
  else if field.is "lines" then lines
  else extra

variable (decoders : Decoders)

/-- Stores a value. -/
def put (slot : Slot) (label : Str) (raw : Bytes) (record : OverviewRecord) : OverviewRecord :=
  let text := trim (decoders.decodeHeaderValue raw)
  match slot with
  | subject => { record with subject := text }
  | author => { record with from_ := text }
  | date =>
      let dateRaw := trim (decode8bitLossy decoders raw)
      { record with dateRaw, date := decoders.parseDate dateRaw }
  | messageId => { record with messageId := (MessageId.parse (decode8bitLossy decoders raw)).toOption }
  | references => { record with references := MessageId.parseList (decode8bitLossy decoders raw) }
  | bytes => { record with bytes := OverviewRecord.parseCount decoders raw }
  | lines => { record with lines := OverviewRecord.parseCount decoders raw }
  | extra => { record with extra := record.extra ++ [(label, text)] }

/-- A field in a slot of its own has the name of the slot. -/
theorem is_name {field : OverviewField} (h : of field ≠ extra) : field.is (of field).name = true := by
  grind [of, name]

/-- Fields with different names have different slots, the extra one apart. -/
theorem extra_of_eq {f g : OverviewField} (hnames : eqIgnoreAsciiCase f.name g.name = false)
    (h : of f = of g) : of f = extra := by
  by_contra hne
  have hf := is_name hne
  have hg := is_name (h ▸ hne)
  rw [← h] at hg
  unfold OverviewField.is eqIgnoreAsciiCase at hf hg
  unfold eqIgnoreAsciiCase at hnames
  rw [beq_eq_false_iff_ne] at hnames
  exact hnames ((eq_of_beq hf).trans (eq_of_beq hg).symm)

end Slot

namespace OverviewRecord

variable (decoders : Decoders)

/-- The value of a field, without the prefix that a full field has. -/
def ofField (field : OverviewField) (raw : Bytes) : Bytes :=
  if field.full then stripFullPrefix raw field.name else raw

/-- **One step** of the parse stores a value in the slot of its field. -/
theorem setField_eq {fmt : OverviewFmt} {index : Nat} {field : OverviewField}
    (h : fmt.nameAt index = some field) (record : OverviewRecord) (raw : Bytes) :
    setField decoders fmt record index raw =
      (Slot.of field).put decoders field.name (ofField field raw) record := by
  unfold setField Slot.of ofField
  rw [h]
  -- both sides ask for the same names in the same order
  grind [Slot.put]

/-! ## Up to the order of the extra fields -/

/-- A record with its extra fields in no order. -/
abbrev Unordered := OverviewRecord × Multiset (Str × Str)

def unordered (record : OverviewRecord) : Unordered := ({ record with extra := [] }, record.extra)

/-- Two records that say the same, with the extra fields in some order or other. -/
structure Alike (r s : OverviewRecord) : Prop where
  number : r.number = s.number
  subject : r.subject = s.subject
  author : r.from_ = s.from_
  dateRaw : r.dateRaw = s.dateRaw
  date : r.date = s.date
  messageId : r.messageId = s.messageId
  references : r.references = s.references
  bytes : r.bytes = s.bytes
  lines : r.lines = s.lines
  extra : r.extra.Perm s.extra

theorem alike_of_unordered {r s : OverviewRecord} (h : r.unordered = s.unordered) : r.Alike s := by
  obtain ⟨hbase, hextra⟩ := Prod.mk.inj h
  cases r
  cases s
  cases hbase
  exact ⟨rfl, rfl, rfl, rfl, rfl, rfl, rfl, rfl, rfl, Multiset.coe_eq_coe.mp hextra⟩

/-- Stores a value where the order of the extra fields is forgotten. -/
def putUnordered (slot : Slot) (label : Str) (raw : Bytes) (u : Unordered) : Unordered :=
  if slot = .extra then (u.1, u.2 + {(label, trim (decoders.decodeHeaderValue raw))})
  else (slot.put decoders label raw u.1, u.2)

theorem unordered_put (slot : Slot) (label : Str) (raw : Bytes) (record : OverviewRecord) :
    (slot.put decoders label raw record).unordered =
      putUnordered decoders slot label raw record.unordered := by
  cases slot <;> rfl

/-- Values in different slots may be stored in either order, and so may extra ones. -/
theorem putUnordered_comm {s t : Slot} (h : s = t → s = .extra) (a b : Str) (v w : Bytes) (u : Unordered) :
    putUnordered decoders t b w (putUnordered decoders s a v u) =
      putUnordered decoders s a v (putUnordered decoders t b w u) := by
  by_cases hs : s = .extra
  · by_cases ht : t = .extra
    · simp only [putUnordered, hs, ht, if_true]
      rw [Multiset.add_assoc, Multiset.add_comm {(a, _)}, ← Multiset.add_assoc]
    · simp only [putUnordered, hs, ht, if_true, if_false]
  · by_cases ht : t = .extra
    · simp only [putUnordered, hs, ht, if_true, if_false]
    · have hne : s ≠ t := fun heq => hs (h heq)
      simp only [putUnordered, hs, ht, if_false]
      cases s <;> cases t <;> grind [Slot.put]

end OverviewRecord

/-! ## Columns -/

/-- A field that is announced, none of those that name the article number, and its value in one line. -/
structure Column (decoders : Decoders) where
  /-- the line of `LIST OVERVIEW.FMT` -/
  announcement : Bytes
  field : OverviewField
  announced : OverviewField.parse (decode8bitLossy decoders announcement) = some field
  ordinary : (field.is "number" || field.is "article") = false
  value : Bytes

/-- A line of the announcement for the article number, which some servers list and some do not. -/
def IsNumberLine (decoders : Decoders) (line : Bytes) : Prop :=
  ∃ field, OverviewField.parse (decode8bitLossy decoders line) = some field ∧
    (field.is "number" || field.is "article") = true

/-- The number, in front of the other fields or not there. -/
def Leads (decoders : Decoders) (leading : List Bytes) : Prop :=
  leading = [] ∨ ∃ line, leading = [line] ∧ IsNumberLine decoders line

/-- The names differ, upper and lower case apart. -/
def Distinct {decoders : Decoders} (columns : List (Column decoders)) : Prop :=
  columns.Pairwise fun c d => eqIgnoreAsciiCase c.field.name d.field.name = false

section Columns

variable {decoders : Decoders} {columns : List (Column decoders)} {leading : List Bytes}

theorem filterMap_announced (columns : List (Column decoders)) :
    (columns.map (·.announcement)).filterMap (fun line => OverviewField.parse (decode8bitLossy decoders line)) =
      columns.map (·.field) := by
  induction columns with
  | nil => rfl
  | cons c columns ih => simp [c.announced, ih]

/-- **The layout of the columns** is their fields, whether or not the number comes first. -/
theorem OverviewFmt.parse_columns (hleading : Leads decoders leading) (hne : columns ≠ []) :
    OverviewFmt.parse decoders (leading ++ columns.map (·.announcement)) = ⟨columns.map (·.field)⟩ := by
  have hhead : (columns.map (·.field)).head?.any
      (fun field => field.is "number" || field.is "article") = false := by
    cases columns with
    | nil => rfl
    | cons c columns => exact c.ordinary
  have hfields : (columns.map (·.field)).isEmpty = false := by simpa using hne
  unfold OverviewFmt.parse
  rcases hleading with rfl | ⟨line, rfl, field, hfield, hnumber⟩
  · simp only [List.nil_append, filterMap_announced, hhead, hfields, Bool.false_eq_true, if_false]
  · simp only [List.singleton_append, List.filterMap_cons, hfield, filterMap_announced, List.head?_cons,
      Option.any_some, hnumber, if_true, List.tail_cons, hfields, Bool.false_eq_true, if_false]

/-- What a column adds to a record. -/
def Column.store (record : OverviewRecord) (c : Column decoders) : OverviewRecord :=
  (Slot.of c.field).put decoders c.field.name (OverviewRecord.ofField c.field c.value) record

/-- **The loop** stores the columns one after the other. -/
theorem setFields_columns (front columns : List (Column decoders)) (record : OverviewRecord) :
    OverviewRecord.setFields decoders ⟨(front ++ columns).map (·.field)⟩ record front.length
        (columns.map (·.value)) =
      columns.foldl Column.store record := by
  induction columns generalizing front record with
  | nil => rfl
  | cons c columns ih =>
      have hname : OverviewFmt.nameAt ⟨(front ++ c :: columns).map (·.field)⟩ front.length = some c.field := by
        simp [OverviewFmt.nameAt]
      have hrest := ih (front ++ [c]) (Column.store record c)
      rw [List.append_assoc, List.singleton_append, List.length_append, List.length_singleton] at hrest
      rw [List.map_cons, OverviewRecord.setFields, OverviewRecord.setField_eq decoders hname, List.foldl_cons,
        ← hrest]
      rfl

/-- What a column adds where the order of the extra fields is forgotten. -/
def Column.storeUnordered (u : OverviewRecord.Unordered) (c : Column decoders) : OverviewRecord.Unordered :=
  OverviewRecord.putUnordered decoders (Slot.of c.field) c.field.name (OverviewRecord.ofField c.field c.value) u

theorem unordered_foldl (columns : List (Column decoders)) (record : OverviewRecord) :
    (columns.foldl Column.store record).unordered = columns.foldl Column.storeUnordered record.unordered := by
  induction columns generalizing record with
  | nil => rfl
  | cons c columns ih =>
      rw [List.foldl_cons, List.foldl_cons, ih]
      congr 1
      exact OverviewRecord.unordered_put decoders _ _ _ record

theorem Distinct.slots (h : Distinct columns) {c d : Column decoders} (hc : c ∈ columns) (hd : d ∈ columns)
    (hne : c ≠ d) : Slot.of c.field = Slot.of d.field → Slot.of c.field = .extra := by
  have hsymm : Std.Symm fun c d : Column decoders => eqIgnoreAsciiCase c.field.name d.field.name = false := by
    constructor
    intro c d hcd
    unfold eqIgnoreAsciiCase at hcd ⊢
    rw [beq_eq_false_iff_ne] at hcd ⊢
    exact hcd.symm
  exact Slot.extra_of_eq (List.Pairwise.forall h hc hd hne)

/-- **Columns may be moved about.** -/
theorem Distinct.foldl_perm (h : Distinct columns) {columns' : List (Column decoders)}
    (hperm : columns.Perm columns') (record : OverviewRecord) :
    (columns.foldl Column.store record).Alike (columns'.foldl Column.store record) := by
  apply OverviewRecord.alike_of_unordered
  rw [unordered_foldl, unordered_foldl]
  refine hperm.foldl_eq' (fun c hc d hd u => ?_) _
  by_cases heq : c = d
  · rw [heq]
  · exact OverviewRecord.putUnordered_comm decoders (h.slots hc hd heq) _ _ _ _ u

/-- With any layout the loop stores the columns, and with none there is nothing to store. -/
theorem setFields_layout (hleading : Leads decoders leading) (record : OverviewRecord) :
    OverviewRecord.setFields decoders
        (OverviewFmt.parse decoders (leading ++ columns.map (·.announcement))) record 0 (columns.map (·.value)) =
      columns.foldl Column.store record := by
  by_cases hne : columns = []
  · rw [hne]
    rfl
  · rw [OverviewFmt.parse_columns hleading hne]
    exact setFields_columns [] columns record

/-- **Overview parsing follows the names.** A line and a line with its values moved about, each read with the
layout of its own announcement, are both no overview lines, or give records that say the same. -/
theorem overview_follows_names {columns' : List (Column decoders)} (hperm : columns.Perm columns')
    (hdistinct : Distinct columns) {leading' : List Bytes} (hleading : Leads decoders leading)
    (hleading' : Leads decoders leading') {line line' rawNumber : Bytes}
    (hline : splitAll (· == 0x09) line = (rawNumber, columns.map (·.value)))
    (hline' : splitAll (· == 0x09) line' = (rawNumber, columns'.map (·.value))) :
    (∃ error,
      OverviewRecord.parse decoders line
          (OverviewFmt.parse decoders (leading ++ columns.map (·.announcement))) = .error error ∧
        OverviewRecord.parse decoders line'
          (OverviewFmt.parse decoders (leading' ++ columns'.map (·.announcement))) = .error error) ∨
    ∃ r s,
      OverviewRecord.parse decoders line
          (OverviewFmt.parse decoders (leading ++ columns.map (·.announcement))) = .ok r ∧
        OverviewRecord.parse decoders line'
          (OverviewFmt.parse decoders (leading' ++ columns'.map (·.announcement))) = .ok s ∧
        r.Alike s := by
  unfold OverviewRecord.parse
  rw [hline, hline']
  dsimp only
  cases parseU64 (trim (decode8bitLossy decoders rawNumber)) with
  | none => exact Or.inl ⟨_, rfl, rfl⟩
  | some number =>
      refine Or.inr ⟨_, _, rfl, rfl, ?_⟩
      rw [setFields_layout hleading, setFields_layout hleading']
      exact hdistinct.foldl_perm hperm _

end Columns

/-- Decoders for plain ASCII. -/
def asciiDecoders : Decoders where
  windows1252 bytes := bytes.map asciiChar
  decodeHeaderValue bytes := bytes.map asciiChar
  parseDate _ := none

def subjectColumn : Column asciiDecoders where
  announcement := asBytes "Subject:".toList
  field := { name := "Subject".toList, full := false, metadata := false }
  announced := by decide +kernel
  ordinary := by decide
  value := asBytes "Hello".toList

def bytesColumn : Column asciiDecoders where
  announcement := asBytes ":bytes".toList
  field := { name := "bytes".toList, full := false, metadata := true }
  announced := by decide +kernel
  ordinary := by decide
  value := asBytes "12".toList

def xrefColumn : Column asciiDecoders where
  announcement := asBytes "Xref:full".toList
  field := { name := "Xref".toList, full := true, metadata := false }
  announced := by decide +kernel
  ordinary := by decide
  value := asBytes "xref: a".toList

/-- Three columns, told in one order after a `:number` and in another without it. -/
theorem overview_follows_names_three :
    ∃ r s,
      OverviewRecord.parse asciiDecoders (asBytes "7\tHello\t12\txref: a".toList)
          (OverviewFmt.parse asciiDecoders (["Subject:", ":bytes", "Xref:full"].map (asBytes ·.toList))) = .ok r ∧
        OverviewRecord.parse asciiDecoders (asBytes "7\txref: a\tHello\t12".toList)
          (OverviewFmt.parse asciiDecoders
            ([":number", "Xref:full", "Subject:", ":bytes"].map (asBytes ·.toList))) = .ok s ∧
        r.Alike s := by
  have hnumber : Leads asciiDecoders [asBytes ":number".toList] := by
    refine Or.inr ⟨_, rfl, { name := "number".toList, full := false, metadata := true }, ?_, ?_⟩ <;> decide +kernel
  have hdistinct : Distinct [subjectColumn, bytesColumn, xrefColumn] := by
    unfold Distinct
    decide
  have hperm : [subjectColumn, bytesColumn, xrefColumn].Perm [xrefColumn, subjectColumn, bytesColumn] :=
    List.perm_append_singleton xrefColumn [subjectColumn, bytesColumn]
  have hread : (OverviewRecord.parse asciiDecoders (asBytes "7\tHello\t12\txref: a".toList)
      (OverviewFmt.parse asciiDecoders
        ([subjectColumn, bytesColumn, xrefColumn].map (·.announcement)))).toOption.isSome = true := by
    decide +kernel
  have hline : splitAll (· == 0x09) (asBytes "7\tHello\t12\txref: a".toList) =
      (asBytes "7".toList, [subjectColumn, bytesColumn, xrefColumn].map (·.value)) := by
    decide
  have hmoved : splitAll (· == 0x09) (asBytes "7\txref: a\tHello\t12".toList) =
      (asBytes "7".toList, [xrefColumn, subjectColumn, bytesColumn].map (·.value)) := by
    decide
  rcases overview_follows_names hperm hdistinct (Or.inl rfl) hnumber hline hmoved with ⟨error, herror, -⟩ | hok
  · rw [List.nil_append] at herror
    rw [herror] at hread
    cases hread
  · exact hok

end Nntp.Proto
