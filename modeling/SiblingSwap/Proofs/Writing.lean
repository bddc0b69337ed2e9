import SiblingSwap.CommandLine.Run
import SiblingSwap.Proofs.Exchange

/-! Swaps from the command line. A run that fails has done nothing. One that succeeds writes its file or prints it, and
    the text is the same: a swap that is skipped leaves the text as it was read, and reading loses nothing of a file. -/

namespace SiblingSwap

/-! ### Files and folders -/

theorem Entries.map_fst_put {κ α : Type} [BEq κ] [LawfulBEq κ] {k : κ} {a b : α} {es : List (κ × α)}
    (h : es.lookup k = some b) : (put k a es).map Prod.fst = es.map Prod.fst := by
  induction es with
  | nil => cases h
  | cons e es ih =>
    obtain ⟨k', a'⟩ := e
    rw [put]
    split
    · next heq => rw [List.map_cons, List.map_cons, eq_of_beq heq]
    · next hne =>
      have hne' : (k == k') = false := by
        rw [beq_eq_false_iff_ne]
        rintro rfl
        simp at hne
      rw [List.lookup_cons, hne'] at h
      rw [List.map_cons, List.map_cons, ih h]

namespace Entry

/-- No name changes, in no folder. -/
theorem names?_rewrite (content : ByteArray) (p q : Place) (e : Entry) :
    (e.rewrite content p).names? q = e.names? q := by
  induction p generalizing q e with
  | nil => cases e <;> cases q <;> rfl
  | cons name rest ih =>
    cases e with
    | file old => rfl
    | folder es =>
      rw [rewrite]
      split
      · next e hlookup =>
        cases q with
        | nil => rw [names?, names?, Entries.map_fst_put hlookup]
        | cons other q =>
          rw [names?, names?]
          by_cases hname : other = name
          · rw [hname, Entries.lookup_put_self, hlookup, Option.bind_some, Option.bind_some, ih]
          · rw [Entries.lookup_put_of_ne hname]
      · rfl

/-- No file changes but the one at the place. -/
theorem content?_rewrite (content : ByteArray) (p q : Place) (e : Entry) :
    (e.rewrite content p).content? q = if q = p then (e.content? p).map fun _ => content else e.content? q := by
  induction p generalizing q e with
  | nil => cases e <;> cases q <;> rfl
  | cons name rest ih =>
    cases e with
    | file old =>
      cases q with
      | nil => rfl
      | cons other q => simp [rewrite, content?]
    | folder es =>
      cases hlookup : es.lookup name with
      | none =>
        cases q with
        | nil => simp [rewrite, content?, hlookup]
        | cons other q =>
          by_cases hplace : other :: q = name :: rest
          · rw [hplace]
            simp [rewrite, content?, hlookup]
          · simp [rewrite, hlookup, hplace]
      | some e =>
        cases q with
        | nil => simp [rewrite, content?, hlookup]
        | cons other q =>
          simp only [rewrite, content?, hlookup]
          by_cases hname : other = name
          · simp [hname, hlookup, ih]
          · simp [hname, Entries.lookup_put_of_ne hname]

end Entry

namespace Workspace
variable {w : Workspace} {path text : String} {content : ByteArray}

/-- Writing a file changes nothing about where paths lead. -/
theorem find_write (w : Workspace) (path text other : String) : (w.write path text).find other = w.find other := by
  have hsame : (w.write path text).follow = w.follow ∧ (w.write path text).here = w.here := by
    unfold write
    split
    · exact ⟨rfl, rfl⟩
    · refine ⟨funext fun p => funext fun part => ?_, rfl⟩
      unfold follow
      rw [Entry.names?_rewrite]
  rw [find, find, hsame.1, hsame.2]

theorem disk_eq_ok_iff : w.disk path = .ok content ↔ ∃ p, w.find path = .ok p ∧ w.root.content? p = some content := by
  unfold disk
  cases w.find path with
  | error e => simp
  | ok p => cases hcontent : w.root.content? p <;> simp [hcontent]

/-- A file that was written is read as it was written. -/
theorem disk_write (h : w.disk path = .ok content) (text : String) :
    (w.write path text).disk path = .ok text.toUTF8 := by
  obtain ⟨p, hfind, hcontent⟩ := disk_eq_ok_iff.mp h
  refine disk_eq_ok_iff.mpr ⟨p, by rw [find_write, hfind], ?_⟩
  simp [write, hfind, Entry.content?_rewrite, hcontent]

/-- The workspace has the same folders with the same names, and at most the file at the path is another one. -/
structure SameBut (w : Workspace) (path : String) (after : Workspace) : Prop where
  here : after.here = w.here
  names : ∀ p, after.root.names? p = w.root.names? p
  others : ∀ p, after.root.content? p = w.root.content? p ∨ w.find path = .ok p

theorem sameBut_self (w : Workspace) (path : String) : w.SameBut path w := ⟨rfl, fun _ => rfl, fun _ => Or.inl rfl⟩

theorem sameBut_write (w : Workspace) (path text : String) : w.SameBut path (w.write path text) := by
  unfold write
  split
  · exact w.sameBut_self path
  · next p hfind =>
    refine ⟨rfl, fun q => Entry.names?_rewrite _ p q w.root, fun q => ?_⟩
    by_cases hq : q = p
    · exact Or.inr (hq ▸ hfind)
    · exact Or.inl (by rw [Entry.content?_rewrite, if_neg hq])

end Workspace

theorem Disk.eq_of_read {d : Disk} {path text : String} (h : d.read path = .ok text) : d path = .ok text.toUTF8 := by
  unfold Disk.read at h
  split at h
  · cases h
  · next content hcontent =>
    rw [hcontent]
    split at h
    · next decoded hdecoded =>
      obtain rfl := Except.ok.inj h
      unfold String.fromUTF8? at hdecoded
      split at hdecoded
      · exact Option.some.inj hdecoded ▸ rfl
      · cases hdecoded
    · cases h

/-! ### Switching writing on -/

namespace CommandLine
namespace Given
variable {action : Action}

/-- Writing is switched on before all else; it must not be switched on twice. -/
def writing (g : Given) : Option Given :=
  if .write ∈ g.switches then none else some { g with switches := g.switches ++ [.write] }

theorem writing_switch? (g : Given) (s : Switch) :
    (g.writing.bind fun g => g.switch? s) = (g.switch? s).bind writing := by
  by_cases hw : .write ∈ g.switches
  · by_cases hs : s ∈ g.switches <;> simp [writing, switch?, hw, hs]
  · by_cases hs : s ∈ g.switches
    · simp [writing, switch?, hw, hs]
    · cases s <;> simp [writing, switch?, hw, hs]

/-- A step that has nothing to do with switches can be taken before or after writing is switched on. -/
theorem writing_bind {step : Given → Option Given}
    (h : ∀ g switches, step { g with switches } = (step g).map fun g => { g with switches }) (g : Given) :
    g.writing.bind step = (step g).bind writing := by
  cases hstep : step g with
  | none =>
    unfold writing
    split
    · rfl
    · rw [Option.bind_some, h, hstep]
      rfl
  | some g' =>
    have hsame : g'.switches = g.switches := by
      have hself : step g = (step g).map fun g' => { g' with switches := g.switches } := h g g.switches
      rw [hstep, Option.map_some, Option.some.injEq] at hself
      exact (congrArg switches hself :)
    unfold writing
    rw [Option.bind_some, hsame]
    split
    · rfl
    · rw [Option.bind_some, h, hstep]
      rfl

theorem writing_set? (g : Given) (p : Parameter) (value : List Char) :
    (g.writing.bind fun g => g.set? p value) = (g.set? p value).bind writing := by
  refine writing_bind (fun g switches => ?_) g
  cases p with
  | settings =>
    simp only [set?]
    split <;> rfl
  | offset =>
    simp only [set?]
    split
    · rfl
    · cases Text.nat64? value <;> rfl
  | extendLines =>
    simp only [set?]
    split
    · rfl
    · cases linesOf? value <;> rfl

theorem writing_path? (g : Given) (path : String) :
    (g.writing.bind fun g => g.path? path) = (g.path? path).bind writing := by
  refine writing_bind (fun g switches => ?_) g
  simp only [path?]
  split <;> rfl

/-- A step after which an option may still lack its value. -/
theorem writing_bind_map {step : Given → Option Given} (g : Given)
    (h : g.writing.bind step = (step g).bind writing) (waiting : Option Parameter) :
    (g.writing.bind fun g => (step g).map (·, waiting)) =
      ((step g).map (·, waiting)).bind fun x => x.1.writing.map (·, x.2) := by
  calc (g.writing.bind fun g => (step g).map (·, waiting))
      = (g.writing.bind step).map (·, waiting) := by rw [Option.map_bind]; rfl
    _ = ((step g).bind writing).map (·, waiting) := by rw [h]
    _ = _ := by cases step g <;> rfl

theorem writing_some (g : Given) : g.writing.bind some = (some g).bind writing := by
  rw [Option.bind_some, Option.bind_fun_some]

theorem writing_letters? (g : Given) (cs : List Char) :
    (g.writing.bind fun g => g.letters? action cs) = (g.letters? action cs).bind fun x => x.1.writing.map (·, x.2) := by
  induction cs generalizing g with
  | nil => exact writing_bind_map g (writing_some g) none
  | cons c cs ih =>
    cases hc : shortOption? action c with
    | none => simp [letters?.eq_6 action _ c cs hc]
    | some o =>
      cases o with
      | inl s =>
        simp only [letters?.eq_2 action _ c cs s hc]
        rw [← Option.bind_assoc, writing_switch?, Option.bind_assoc, Option.bind_assoc]
        exact congrArg _ (funext ih)
      | inr p =>
        cases cs with
        | nil =>
          simp only [letters?.eq_3 action _ c p hc]
          exact writing_bind_map g (writing_some g) (some p)
        | cons d value =>
          by_cases hd : d = '='
          · subst hd
            simp only [letters?.eq_4 action _ c p value hc]
            exact writing_bind_map g (writing_set? g p value) none
          · have hplain : ∀ v, d :: value = '=' :: v → False := fun v h => hd (List.cons.inj h).1
            simp only [letters?.eq_5 action _ c (d :: value) p hc (by simp) hplain]
            exact writing_bind_map g (writing_set? g p (d :: value)) none

theorem writing_long? (g : Given) (cs : List Char) :
    (g.writing.bind fun g => g.long? action cs) = (g.long? action cs).bind fun x => x.1.writing.map (·, x.2) := by
  unfold long?
  cases longOption? action (String.ofList (cs.takeWhile (· != '='))) with
  | none => simp
  | some o =>
    cases o with
    | inl s =>
      cases cs.dropWhile (· != '=') with
      | nil => exact writing_bind_map g (writing_switch? g s) none
      | cons c value => simp
    | inr p =>
      cases cs.dropWhile (· != '=') with
      | nil => exact writing_bind_map g (writing_some g) (some p)
      | cons c value => exact writing_bind_map g (writing_set? g p value) none

theorem writing_foldlM_path? (g : Given) (args : List String) :
    (g.writing.bind fun g => args.foldlM path? g) = (args.foldlM path? g).bind writing := by
  induction args generalizing g with
  | nil => exact writing_some g
  | cons arg args ih =>
    simp only [List.foldlM_cons, Option.bind_eq_bind]
    rw [← Option.bind_assoc, writing_path?, Option.bind_assoc, Option.bind_assoc]
    exact congrArg _ (funext ih)

/-- What one argument comes to: from it on there are only paths, or it is read in a step that can be taken before or
    after writing is switched on. -/
theorem read?_cons_cases (action : Action) (waiting : Option Parameter) (arg : String) (args : List String) :
    (∀ g, read? action g waiting (arg :: args) = args.foldlM path? g) ∨
    ∃ step : Given → Option (Given × Option Parameter),
      (∀ g, g.writing.bind step = (step g).bind fun x => x.1.writing.map (·, x.2)) ∧
      ∀ g, read? action g waiting (arg :: args) = (step g).bind fun x => read? action x.1 x.2 args := by
  cases waiting with
  | some p =>
    right
    by_cases hdash : ∃ c cs, arg.toList = '-' :: c :: cs
    · obtain ⟨c, cs, harg⟩ := hdash
      exact ⟨fun _ => none, fun g => by simp, fun g => read?.eq_6 action g arg args p c cs harg⟩
    · refine ⟨_, fun g => writing_bind_map g (writing_set? g p arg.toList) none, fun g => ?_⟩
      rw [read?.eq_7 action g arg args p fun c cs h => hdash ⟨c, cs, h⟩, Option.bind_map]
      rfl
  | none =>
    have hpath : (∀ c cs, arg.toList ≠ '-' :: c :: cs) →
        ∃ step : Given → Option (Given × Option Parameter),
          (∀ g, g.writing.bind step = (step g).bind fun x => x.1.writing.map (·, x.2)) ∧
          ∀ g, read? action g none (arg :: args) = (step g).bind fun x => read? action x.1 x.2 args := by
      intro hplain
      refine ⟨_, fun g => writing_bind_map g (writing_path? g arg) none, fun g => ?_⟩
      rw [read?.eq_5 action g arg args (hplain '-' []) (hplain '-') hplain, Option.bind_map]
      rfl
    cases harg : arg.toList with
    | nil => exact Or.inr (hpath fun c cs h => by simp [harg] at h)
    | cons a cs =>
      cases cs with
      | nil => exact Or.inr (hpath fun c cs h => by simp [harg] at h)
      | cons c cs =>
        by_cases ha : a = '-'
        · subst ha
          by_cases hc : c = '-'
          · subst hc
            cases cs with
            | nil => exact Or.inl fun g => read?.eq_2 action g arg args harg
            | cons d cs =>
              exact Or.inr ⟨_, (writing_long? · (d :: cs)), fun g => read?.eq_3 action g arg args _ (by simp) harg⟩
          · have hplain : c = '-' → cs = [] → False := fun h => absurd h hc
            exact Or.inr ⟨_, (writing_letters? · (c :: cs)), fun g => read?.eq_4 action g arg args c cs hplain hc harg⟩
        · exact Or.inr (hpath fun c cs h => ha (List.cons.inj (harg ▸ h)).1)

theorem writing_read? (g : Given) (waiting : Option Parameter) (args : List String) :
    (g.writing.bind fun g => g.read? action waiting args) = (g.read? action waiting args).bind writing := by
  induction args generalizing g waiting with
  | nil =>
    simp only [read?]
    split
    · simp
    · exact writing_some g
  | cons arg args ih =>
    rcases read?_cons_cases action waiting arg args with hpaths | ⟨step, hstep, hread⟩
    · simp only [hpaths, writing_foldlM_path?]
    · simp only [hread]
      rw [← Option.bind_assoc, hstep, Option.bind_assoc, Option.bind_assoc]
      refine congrArg _ (funext fun x => ?_)
      rw [← ih, Option.bind_map]
      rfl

theorem request?_eq_some {g : Given} {r : Request} (h : g.request? action = some r) :
    g.path = some r.path ∧ g.offset = some r.offset ∧
      r = { action, path := r.path, offset := r.offset
            direction := if g.switches.contains .backward then .backward else .forward
            settings := g.settings, extendLines := g.extendLines
            stay := g.switches.contains .stay, write := g.switches.contains .write } := by
  simp only [request?, Option.bind_eq_bind, Option.pure_def, Option.bind_eq_some_iff, Option.some.injEq] at h
  obtain ⟨path, hpath, offset, hoffset, rfl⟩ := h
  exact ⟨hpath, hoffset, rfl⟩

theorem writing_request? {g : Given} {r : Request} (h : g.request? action = some r) (hwrite : r.write = false) :
    (g.writing.bind fun g => g.request? action) = some { r with write := true } := by
  obtain ⟨hpath, hoffset, hr⟩ := request?_eq_some h
  rw [hr] at hwrite ⊢
  have hnot : .write ∉ g.switches := by simpa using hwrite
  simp [writing, hnot, request?, hpath, hoffset]

end Given

/-- A swap that is printed is written when one argument more is given. -/
theorem command?_write {args : List String} {r : Request} (h : command? ("swap" :: args) = some (.request r))
    (hwrite : r.write = false) :
    command? ("swap" :: "--write" :: args) = some (.request { r with write := true }) := by
  have hread : Given.read? .swap {} none ("--write" :: args) =
      (Given.writing {}).bind fun g => Given.read? .swap g none args := rfl
  simp only [command?, action?, Option.map_eq_some_iff, Option.bind_eq_some_iff, Command.request.injEq] at h ⊢
  obtain ⟨r', ⟨g, hg, hr⟩, rfl⟩ := h
  refine ⟨_, ?_, rfl⟩
  have hrequest := Given.writing_request? hr hwrite
  obtain ⟨g', hg', hr'⟩ := Option.bind_eq_some_iff.1 hrequest
  refine ⟨g', ?_, hr'⟩
  rw [hread, Given.writing_read?, hg, Option.bind_some, hg']

/-! ### Runs -/

theorem Failure.code_ne_zero (e : Failure) : e.code ≠ 0 := by
  unfold Failure.code
  split <;> decide

namespace Request
variable {r : Request} {d : Disk}

/-- What keeps a request from being carried out: its settings, its file or its offset. -/
def Fails (r : Request) (d : Disk) : Prop :=
  (∃ e, Settings.load d r.layers r.single = .error e) ∨ (∃ e, d.read r.path = .error e) ∨
    ∃ text, d.read r.path = .ok text ∧ Text.size text.toList < r.offset

theorem prepare_cases (r : Request) (d : Disk) :
    (r.Fails d ∧ ∃ e, r.prepare d = .error e) ∨
    (¬ r.Fails d ∧ ∃ s text, d.read r.path = .ok text ∧
      r.prepare d = .ok (s, Buffer.withCursor text.toList r.offset)) := by
  cases hs : Settings.load d r.layers r.single with
  | error e => exact Or.inl ⟨Or.inl ⟨e, hs⟩, .settings e, by rw [prepare, hs]; rfl⟩
  | ok s =>
    cases htext : d.read r.path with
    | error e => exact Or.inl ⟨Or.inr (Or.inl ⟨e, htext⟩), .read e, by rw [prepare, hs, htext]; rfl⟩
    | ok text =>
      by_cases hrange : Text.size text.toList < r.offset
      · refine Or.inl ⟨Or.inr (Or.inr ⟨text, htext, hrange⟩), ?_⟩
        rw [prepare, hs, htext]
        simp [Except.mapError, bind, Except.bind, Buffer.openAt, hrange]
      · refine Or.inr ⟨?_, s, text, rfl, ?_⟩
        · rintro (⟨e, he⟩ | ⟨e, he⟩ | ⟨text', htext', hrange'⟩)
          · rw [hs] at he; cases he
          · rw [htext] at he; cases he
          · rw [htext] at htext'; cases htext'; exact hrange hrange'
        · rw [prepare, hs, htext]
          simp [Except.mapError, bind, Except.bind, pure, Except.pure, Buffer.openAt, hrange]

/-- A swap fails, written or not, and leaves nothing but a message; or it comes to a text, which is printed, or written
    unless it is the text that was read. -/
theorem run_swap_cases (r : Request) (d : Disk) (hswap : r.action = .swap) :
    (r.Fails d ∧ ∃ code said, code ≠ 0 ∧ ∀ write, { r with write }.run d = ⟨code, "", said, none⟩) ∨
    (¬ r.Fails d ∧ ∃ before after said, d.read r.path = .ok before ∧
      { r with write := false }.run d = ⟨0, after, said, none⟩ ∧
      ({ r with write := true }.run d = ⟨0, "", said, some (r.path, after)⟩ ∨
        after = before ∧ { r with write := true }.run d = ⟨0, "", said, none⟩)) := by
  -- The preparation does not look at `write`.
  have hprepare : ∀ write, { r with write }.prepare d = r.prepare d := fun _ => rfl
  rcases r.prepare_cases d with ⟨hfails, e, he⟩ | ⟨hfails, s, before, hread, hok⟩
  · refine Or.inl ⟨hfails, e.code, s!"Error: {e.message}\n", e.code_ne_zero, fun write => ?_⟩
    rw [run, hprepare, he]
  · have hrun : ∀ write, { r with write }.run d =
        { r with write }.runSwap s (Buffer.withCursor before.toList r.offset) := by
      intro write
      rw [run, hprepare, hok]
      simp only [hswap]
    refine Or.inr ⟨hfails, before, ?_⟩
    simp only [hrun, runSwap]
    cases hresult : (Buffer.withCursor before.toList r.offset).swap s r.direction with
    | mk b outcome =>
      cases outcome with
      | swapped pair cursor => exact ⟨String.ofList b.text, _, hread, rfl, Or.inl rfl⟩
      | skipped why =>
        have hb : b.text = before.toList := by rw [Buffer.eq_of_skipped hresult]; rfl
        exact ⟨String.ofList b.text, _, hread, rfl, Or.inr ⟨by rw [hb, String.ofList_toList], rfl⟩⟩

end Request

theorem runIn_eq {w : Workspace} {args : List String} {r : Request} (h : command? args = some (.request r)) :
    runIn w args = (r.run w.disk, ((r.run w.disk).written.map fun x => w.write x.1 x.2).getD w) := by
  simp only [runIn, run, h]
  cases (r.run w.disk).written <;> rfl

/-- Asked for in any way, a swap that fails leaves the workspace and prints nothing. One that does not comes to a text
    and a message: printed, it leaves the workspace, and written, it leaves the text in the file. -/
theorem runIn_swap_cases (w : Workspace) (r : Request) (swaps : r.action = .swap) :
    (r.Fails w.disk ∧ ∃ code said, code ≠ 0 ∧ ∀ write args, command? args = some (.request { r with write }) →
      runIn w args = (⟨code, "", said, none⟩, w)) ∨
    (¬ r.Fails w.disk ∧ ∃ text said,
      (∀ args, command? args = some (.request { r with write := false }) →
        runIn w args = (⟨0, text, said, none⟩, w)) ∧
      ∀ args, command? args = some (.request { r with write := true }) → ∃ written after,
        runIn w args = (⟨0, "", said, written⟩, after) ∧ after.disk r.path = .ok text.toUTF8 ∧
          w.SameBut r.path after) := by
  rcases r.run_swap_cases w.disk swaps with
    ⟨hfails, code, said, hcode, hrun⟩ | ⟨hfails, before, text, said, hread, hprinted, hwritten⟩
  · refine Or.inl ⟨hfails, code, said, hcode, fun write args asked => ?_⟩
    rw [runIn_eq asked, hrun]
    rfl
  · have hdisk : w.disk r.path = .ok before.toUTF8 := Disk.eq_of_read hread
    refine Or.inr ⟨hfails, text, said, fun args asked => ?_, fun args asked => ?_⟩
    · rw [runIn_eq asked, hprinted]
      rfl
    · rw [runIn_eq asked]
      rcases hwritten with hwritten | ⟨rfl, hwritten⟩
      · rw [hwritten]
        exact ⟨_, _, rfl, Workspace.disk_write hdisk text, Workspace.sameBut_write w r.path text⟩
      · rw [hwritten]
        exact ⟨_, _, rfl, hdisk, Workspace.sameBut_self w r.path⟩

/-- A swap from the command line changes at most the file it names, and only when it is to be written. It fails exactly
    when its settings, its file or its offset are at fault, and then it has printed and changed nothing. Otherwise the
    file that is written holds what would have been printed, with the same message and code. One argument makes a
    swap that is printed one that is written. -/
theorem swap_whole_or_not_at_all (w : Workspace) {args : List String} {r : Request}
    (asked : command? args = some (.request r)) (swaps : r.action = .swap) :
    let report := (runIn w args).1
    let after := (runIn w args).2
    after.here = w.here ∧ (∀ p, after.root.names? p = w.root.names? p) ∧
    (∀ p, after.root.content? p = w.root.content? p ∨ w.find r.path = .ok p) ∧
    (r.write = false → after = w) ∧
    (report.code ≠ 0 ↔ r.Fails w.disk) ∧
    (report.code ≠ 0 → report.out = "" ∧ after = w) ∧
    (r.write = true → ∀ args', command? args' = some (.request { r with write := false }) →
      let printed := (runIn w args').1
      printed.code = report.code ∧ printed.err = report.err ∧
        (report.code = 0 → after.disk r.path = .ok printed.out.toUTF8)) ∧
    (r.write = false → ∀ rest, args = "swap" :: rest →
      command? ("swap" :: "--write" :: rest) = some (.request { r with write := true })) := by
  intro report after
  have hwrites : r.write = false → ∀ rest, args = "swap" :: rest →
      command? ("swap" :: "--write" :: rest) = some (.request { r with write := true }) := by
    rintro hwrite rest rfl
    exact command?_write asked hwrite
  rcases runIn_swap_cases w r swaps with
    ⟨hfails, code, said, hcode, hrun⟩ | ⟨hfails, text, said, hprinted, hwritten⟩
  · have hreport : report = ⟨code, "", said, none⟩ := congrArg Prod.fst (hrun r.write args asked)
    have hafter : after = w := congrArg Prod.snd (hrun r.write args asked)
    have hsame : w.SameBut r.path after := hafter ▸ w.sameBut_self r.path
    refine ⟨hsame.here, hsame.names, hsame.others, fun _ => hafter, by simp [hreport, hcode, hfails],
      fun _ => ⟨by rw [hreport], hafter⟩, fun _ args' asked' => ?_, hwrites⟩
    simp [hrun false args' asked', hreport, hcode]
  cases hwrite : r.write with
  | false =>
    have hrun := hprinted args (by rw [asked, ← hwrite])
    have hreport : report = ⟨0, text, said, none⟩ := congrArg Prod.fst hrun
    have hafter : after = w := congrArg Prod.snd hrun
    have hsame : w.SameBut r.path after := hafter ▸ w.sameBut_self r.path
    exact ⟨hsame.here, hsame.names, hsame.others, fun _ => hafter, by simp [hreport, hfails],
      fun hcode => absurd (by rw [hreport]) hcode, nofun, fun _ => hwrites hwrite⟩
  | true =>
    obtain ⟨written, left, hrun, hstored, hchanged⟩ := hwritten args (by rw [asked, ← hwrite])
    have hreport : report = ⟨0, "", said, written⟩ := congrArg Prod.fst hrun
    have hafter : after = left := congrArg Prod.snd hrun
    rw [← hafter] at hstored hchanged
    refine ⟨hchanged.here, hchanged.names, hchanged.others, nofun, by simp [hreport, hfails],
      fun hcode => absurd (by rw [hreport]) hcode, fun _ args' asked' => ?_, nofun⟩
    simp [hprinted args' asked', hreport, hstored]

/-- The arguments of a call change places in a file of an inner folder, which the path names by a detour through the
    outer one. The file of the same name beside that folder stays. -/
theorem swap_whole_or_not_at_all_of_call :
    let files : List (String × Entry) :=
      [("sub", .folder [("a.txt", .file "f(a, b)".toUTF8)]), ("a.txt", .file "x + y".toUTF8)]
    let w : Workspace := ⟨.folder [("tmp", .folder [("work", .folder files)])], ["tmp", "work"]⟩
    let after := (runIn w ["swap", "-w", "../work/sub/a.txt", "--offset=2"]).2
    after.disk "../work/sub/a.txt" = .ok "f(b, a)".toUTF8 ∧
      after.root.content? ["tmp", "work", "a.txt"] = some "x + y".toUTF8 := by
  intro files w after
  have asked : command? ["swap", "-w", "../work/sub/a.txt", "--offset=2"] =
      some (.request ⟨.swap, "../work/sub/a.txt", 2, .forward, none, none, false, true⟩) := by decide +kernel
  have hprinted : (runIn w ["swap", "../work/sub/a.txt", "-o2"]).1 = ⟨0, "f(b, a)", "cursor: 6\n", none⟩ := by
    decide +kernel
  obtain ⟨-, -, hothers, -, -, -, hwritten, -⟩ := swap_whole_or_not_at_all w asked rfl
  obtain ⟨hcode, -, hdisk⟩ := hwritten rfl ["swap", "../work/sub/a.txt", "-o2"] (by decide +kernel)
  rw [hprinted] at hcode hdisk
  refine ⟨hdisk hcode.symm, ((hothers ["tmp", "work", "a.txt"]).resolve_right fun hfind => ?_).trans rfl⟩
  have hfound : w.find "../work/sub/a.txt" = .ok ["tmp", "work", "sub", "a.txt"] := by rfl
  exact absurd (Except.ok.inj (hfound.symm.trans hfind)) (by decide)

end CommandLine
end SiblingSwap
