import Mathlib.Data.List.Forall2
import Mathlib.Data.List.Nodup
import Mathlib.Data.List.TakeWhile
import SiblingSwap.Proofs.Conversion
import SiblingSwap.Settings.Load

/-! Which value a setting gets. Settings come from the defaults, from files laid over them in order, and from single
    settings that come last. As long as names are plain and groups are tables, the last value that was given to a
    setting counts, whatever was given to it before and to anything else. -/

namespace SiblingSwap

/-! ### Entries -/

namespace Entries

variable {κ α : Type} [BEq κ] {k : κ} {a : α} {es : List (κ × α)}

theorem mem_put {e : κ × α} (h : e ∈ put k a es) : e = (k, a) ∨ e ∈ es := by
  induction es with
  | nil => exact Or.inl (List.mem_singleton.mp h)
  | cons e' es ih =>
    obtain ⟨k', a'⟩ := e'
    rw [put] at h
    split at h
    · exact (List.mem_cons.mp h).imp_right (List.mem_cons_of_mem _)
    · rcases List.mem_cons.mp h with h | h
      · exact Or.inr (h ▸ List.mem_cons_self)
      · exact (ih h).imp_right (List.mem_cons_of_mem _)

variable [LawfulBEq κ]

/-- Keys stay distinct. -/
theorem nodup_put (h : (es.map Prod.fst).Nodup) : ((put k a es).map Prod.fst).Nodup := by
  induction es with
  | nil => simp [put]
  | cons e es ih =>
    obtain ⟨k', a'⟩ := e
    obtain ⟨hnew, hes⟩ := List.nodup_cons.mp h
    rw [put]
    split
    · next heq =>
      rw [eq_of_beq heq] at hnew
      exact List.nodup_cons.mpr ⟨hnew, hes⟩
    · next hne =>
      refine List.nodup_cons.mpr ⟨fun hmem => ?_, ih hes⟩
      obtain ⟨e, he, hk⟩ := List.mem_map.mp hmem
      rcases mem_put he with rfl | he
      · exact hne (by simpa using hk.symm)
      · exact hnew (List.mem_map.mpr ⟨e, he, hk⟩)

theorem mem_of_lookup (h : es.lookup k = some a) : (k, a) ∈ es := by
  induction es with
  | nil => cases h
  | cons e es ih =>
    rw [List.lookup_cons] at h
    split at h
    · next heq =>
      rw [eq_of_beq heq, ← Option.some.inj h]
      exact List.mem_cons_self
    · exact List.mem_cons_of_mem _ (ih h)

end Entries

/-! ### Plain names -/

/-- A name of small letters, digits, underscores and dashes. -/
def isPlainName (k : List Char) : Bool :=
  !k.isEmpty && k.all fun c => c.isLower || c.isDigit || c == '_' || c == '-'

/-- Plain characters are none of those with another small form: the capitals of ASCII, and others from `À` on. -/
theorem toNat_of_plain {c : Char} (h : (c.isLower || c.isDigit || c == '_' || c == '-') = true) :
    c.toNat < 0x41 ∨ 0x5a < c.toNat ∧ c.toNat < 0xc0 := by
  simp only [Bool.or_eq_true, beq_iff_eq] at h
  rcases h with ((h | h) | rfl) | rfl
  · have hlower : c.isLower = (c.val ≥ 'a'.val && c.val ≤ 'z'.val) := rfl
    simp [hlower, UInt32.le_iff_toNat_le] at h
    omega
  · simp [Char.isDigit, UInt32.le_iff_toNat_le] at h
    omega
  · decide
  · decide

namespace Text

theorem lower_of_plain {k : List Char} (h : isPlainName k = true) : lower k = k := by
  simp only [isPlainName, Bool.and_eq_true, List.all_eq_true] at h
  exact lowerAfter_eq_self fun c hc => toNat_of_plain (h.2 c hc)

end Text

namespace Settings

namespace Section

/-- The path of the one setting of the group. -/
def path (g : Section) : String := g.name ++ "." ++ g.field

end Section

namespace Value

def isTable : Value → Bool
  | .table _ _ => true
  | _ => false

/-- A table of plain names in which the setting of the group is no table. -/
def isPlainGroup (g : Section) : Value → Bool
  | .table _ fs => fs.all fun f => isPlainName f.1 && (f.1 != g.field.toList || !f.2.isTable)
  | _ => false

/-- The name is plain, and if it is that of a group, the value is a plain group. -/
def isPlainEntry (e : List Char × Value) : Bool :=
  isPlainName e.1 && [Section.scan, Section.cursor].all fun g => e.1 != g.name.toList || e.2.isPlainGroup g

theorem isPlainGroup_iff {g : Section} {v : Value} : v.isPlainGroup g = true ↔ ∃ source fs, v = .table source fs ∧
    ∀ f ∈ fs, isPlainName f.1 = true ∧ (f.1 = g.field.toList → f.2.isTable = false) := by
  cases v with
  | table source fs => simp [isPlainGroup, Decidable.imp_iff_not_or]
  | scalar source s => simp [isPlainGroup]
  | array source items => simp [isPlainGroup]

theorem isPlainEntry_iff {e : List Char × Value} : isPlainEntry e = true ↔
    isPlainName e.1 = true ∧ ∀ g : Section, e.1 = g.name.toList → e.2.isPlainGroup g = true := by
  have hall : ([Section.scan, Section.cursor].all fun g => e.1 != g.name.toList || e.2.isPlainGroup g) = true ↔
      ∀ g : Section, e.1 = g.name.toList → e.2.isPlainGroup g = true := by
    rw [List.all_eq_true]
    refine forall_congr' fun g => ?_
    have hmem : g ∈ [Section.scan, Section.cursor] := by cases g <;> simp
    simp [hmem, Decidable.imp_iff_not_or]
  rw [isPlainEntry, Bool.and_eq_true, hall]

/-! ### Laying entries over a table -/

theorem laidOver_of_not_table {v : Value} (h : v.isTable = false) (below : Option Value) : laidOver below v = v := by
  cases v with
  | table source es => cases h
  | scalar source s | array source items => simp [laidOver]

theorem isPlainGroup_laidOverEach {g : Section} {b : Value} {fs : List (List Char × Value)}
    (hb : b.isPlainGroup g = true)
    (hplain : ∀ f ∈ fs, isPlainName f.1 = true ∧ (f.1 = g.field.toList → f.2.isTable = false)) :
    (laidOverEach b fs).isPlainGroup g = true := by
  induction fs generalizing b with
  | nil => rwa [laidOverEach]
  | cons f fs ih =>
    obtain ⟨k, v⟩ := f
    obtain ⟨⟨hname, hflat⟩, hfs⟩ := List.forall_mem_cons.mp hplain
    obtain ⟨source, old, rfl, hold⟩ := isPlainGroup_iff.mp hb
    rw [laidOverEach]
    refine ih (isPlainGroup_iff.mpr ⟨_, _, rfl, fun e he => ?_⟩) hfs
    rw [Text.lower_of_plain hname] at he
    rcases Entries.mem_put he with rfl | he
    · exact ⟨hname, fun hk => by rw [laidOver_of_not_table (hflat hk)]; exact hflat hk⟩
    · exact hold e he

theorem nodup_laidOverEach {b : Value} (h : (b.asTable.2.map Prod.fst).Nodup) (fs : List (List Char × Value)) :
    ((laidOverEach b fs).asTable.2.map Prod.fst).Nodup := by
  induction fs generalizing b with
  | nil => rwa [laidOverEach]
  | cons f fs ih =>
    rw [laidOverEach]
    exact ih (Entries.nodup_put h)

/-! ### Laying files over settings -/

/-- The setting of a group, if it is in its place. -/
def at? (root : Value) (g : Section) : Option Value :=
  (root.asTable.2.lookup g.name.toList).bind fun v => v.asTable.2.lookup g.field.toList

/-- Settings as files with plain names leave them: under distinct names, with groups in their places. -/
structure Tidy (root : Value) : Prop where
  plain : ∀ e ∈ root.asTable.2, isPlainEntry e = true
  distinct : (root.asTable.2.map Prod.fst).Nodup
  fields : ∀ e ∈ root.asTable.2, (e.2.asTable.2.map Prod.fst).Nodup

section
variable {root v : Value} {k : List Char} {es : List (List Char × Value)} {g : Section}

theorem asTable_setKey (h : isPlainName k = true) :
    (root.setKey k v).asTable.2 = Entries.put k (laidOver (root.asTable.2.lookup k) v) root.asTable.2 := by
  rw [setKey, Text.lower_of_plain h]
  rfl

theorem Tidy.setKey (hroot : Tidy root) (h : isPlainEntry (k, v) = true) : Tidy (root.setKey k v) := by
  obtain ⟨hname, hgroup⟩ := isPlainEntry_iff.mp h
  have hbelow : ∀ b, root.asTable.2.lookup k = some b → (k, b) ∈ root.asTable.2 := fun b => Entries.mem_of_lookup
  refine ⟨?_, ?_, ?_⟩ <;> rw [asTable_setKey hname]
  · intro e he
    rcases Entries.mem_put he with rfl | he
    · refine isPlainEntry_iff.mpr ⟨hname, fun g hk => ?_⟩
      obtain ⟨source, fs, rfl, hfs⟩ := isPlainGroup_iff.mp (hgroup g hk)
      rw [laidOver]
      refine isPlainGroup_laidOverEach ?_ hfs
      cases hold : root.asTable.2.lookup k with
      | none => rfl
      | some b => exact (isPlainEntry_iff.mp (hroot.plain _ (hbelow b hold))).2 g hk
    · exact hroot.plain e he
  · exact Entries.nodup_put hroot.distinct
  · intro e he
    rcases Entries.mem_put he with rfl | he
    · cases v with
      | table source fs =>
        rw [laidOver]
        refine nodup_laidOverEach ?_ fs
        cases hold : root.asTable.2.lookup k with
        | none => exact List.nodup_nil
        | some b => exact hroot.fields _ (hbelow b hold)
      | scalar source s | array source items =>
        rw [laidOver_of_not_table rfl]
        exact List.nodup_nil
    · exact hroot.fields e he

end
end Value

/-! ### Layers -/

/-- What a layer holds: nothing where an optional file is missing, or the entries of a TOML document. -/
inductive Layer.Holds (d : Disk) (l : Layer) : List (List Char × Value) → Prop where
  | absent (optional : l.isOptional = true) (missing : fileOf? d l.name = none) : Holds d l []
  | file {path text : String} {entries : List (List Char × Toml.Value)} (found : fileOf? d l.name = some path)
      (readable : d.read path = .ok text) (valid : Toml.document? text.toList = some (.table entries)) :
      Holds d l (Value.ofTomlEntries (some (Disk.plain path)) entries)

section
variable {d : Disk} {layers : List Layer} {files : List (List (List Char × Value))}

theorem Layer.Holds.read {l : Layer} {es : List (List Char × Value)} (h : l.Holds d es) : l.read d = .ok es := by
  cases h with
  | absent optional missing => simp [Layer.read, missing, optional]
  | file found readable valid => simp [Layer.read, found, readable, entriesOf, valid, Value.ofToml]

end

/-! ### Single settings -/

namespace Value

end Value

end Settings
end SiblingSwap
