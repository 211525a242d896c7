import CBuild.Proofs.Manifest.Reading
import CBuild.Proofs.Toml.Keyed
import Mathlib

/-! Which texts are configurations, and what they say. Every known key has a value of its type or stands for a default;
nothing else in a text matters. -/

namespace CBuild

open Toml (Data)

section Values

def Given {α : Type} (Says : Data → α → Prop) (found : Option Data) (default_ x : α) : Prop :=
  match found with
  | none => x = default_
  | some d => Says d x

def SaysText (d : Data) (s : String) : Prop :=
  d = .text s

def SaysList (d : Data) (vs : List String) : Prop :=
  d = .array (vs.map .text)

@[mk_iff]
structure GivesHooks (before after misc : Option Data) (h : ShellHooks) : Prop where
  before : Given SaysList before [] h.before
  after : Given SaysList after [] h.after
  misc : Given SaysList misc [] h.misc

/-- A table has the lists under their keys, and an array has them in order. A date stands for a table that has none. -/
inductive SaysHooks : Data → ShellHooks → Prop
  | table {es : List (String × Data)} {h : ShellHooks} :
    GivesHooks (es.lookup "before") (es.lookup "after") (es.lookup "misc") h → SaysHooks (.table es) h
  | array {items : List Data} {h : ShellHooks} : GivesHooks items[0]? items[1]? items[2]? h → SaysHooks (.array items) h
  | moment (spelling : String) : SaysHooks (.moment spelling) {}

variable {d : Data} {s : String} {vs : List String} {items : List Data}

theorem textOf_eq_ok : textOf d = .ok s ↔ SaysText d s := by
  cases d <;> simp [textOf, SaysText]

theorem mapM_textOf_eq_ok : items.mapM textOf = .ok vs ↔ items = vs.map .text := by
  induction items generalizing vs with
  | nil =>
    rw [List.mapM_nil, eq_comm (a := [])]
    simp [pure, Except.pure, eq_comm]
  | cons d items ih =>
    have hcons : (d :: items).mapM textOf = .ok vs ↔
        ∃ v ws, textOf d = .ok v ∧ items.mapM textOf = .ok ws ∧ v :: ws = vs := by
      rw [List.mapM_cons]
      cases textOf d <;> cases items.mapM textOf <;> simp [bind, Except.bind, pure, Except.pure]
    rw [hcons]
    constructor
    · rintro ⟨v, ws, hv, hws, rfl⟩
      rw [List.map_cons, textOf_eq_ok.1 hv, ih.1 hws]
    · intro h
      obtain ⟨v, ws, rfl, hv, hws⟩ := List.map_eq_cons_iff.1 h.symm
      exact ⟨v, ws, textOf_eq_ok.2 hv.symm, ih.2 hws.symm, rfl⟩

theorem listOf_eq_ok : listOf d = .ok vs ↔ SaysList d vs := by
  cases d with
  | array items =>
    rw [listOf, mapM_textOf_eq_ok, SaysList, Data.array.injEq]
  | _ => simp [listOf, SaysList]

end Values

namespace Manifest

variable {α : Type} {read : Data → Except Mismatch α} {Says : Data → α → Prop} {es : List (String × Data)}
  {key : String} {x y : α}

theorem readAt_eq_ok (hread : ∀ d, es.lookup key = some d → (read d = .ok y ↔ Says d y)) :
    readAt read es key x = .ok y ↔ Given Says (es.lookup key) x y := by
  unfold readAt Given
  cases h : es.lookup key with
  | none =>
    dsimp only
    rw [Except.ok.injEq, eq_comm]
  | some d => exact hread d h

theorem exists_given {found : Option Data} (x : α) :
    (∃ y, Given Says found x y) ↔ ∀ d, found = some d → ∃ y, Says d y := by
  cases found with
  | none => exact iff_of_true ⟨x, rfl⟩ nofun
  | some d => exact ⟨fun h e he => Option.some.inj he ▸ h, fun h => h d rfl⟩

end Manifest

namespace ShellHooks

open Manifest

variable {es : List (String × Data)} {items : List Data} {h c : ShellHooks} {d : Data}

theorem foldlM_set_iff (hd : (es.map Prod.fst).Nodup) : es.foldlM set h = .ok c ↔
    readAt listOf es "before" h.before = .ok c.before ∧ readAt listOf es "after" h.after = .ok c.after ∧
      readAt listOf es "misc" h.misc = .ok c.misc := by
  induction es generalizing h with
  | nil =>
    cases h
    cases c
    simp [readAt, pure, Except.pure]
  | cons p es ih =>
    obtain ⟨key, d⟩ := p
    rw [List.map_cons, List.nodup_cons] at hd
    have hstep : ((key, d) :: es).foldlM set h = .ok c ↔ ∃ h', set h (key, d) = .ok h' ∧ es.foldlM set h' = .ok c := by
      rw [List.foldlM_cons]
      cases set h (key, d) <;> simp [bind, Except.bind]
    rw [hstep]
    simp only [ih hd.2]
    unfold set
    split
    case h_4 hb ha hm =>
      have other {k : String} (h : ∀ d', (key, d) = (k, d') → False) : k ≠ key := fun he => h d (he ▸ rfl)
      simp only [readAt_other (other hb), readAt_other (other ha), readAt_other (other hm), Except.ok.injEq,
        exists_eq_left']
    all_goals
      next he =>
      cases he
      rw [exists_map_eq_ok]
      simp [readAt_self, readAt_other, readAt_absent hd.1, and_assoc, and_comm, and_left_comm]

theorem foldlM_set_eq_ok (hd : (es.map Prod.fst).Nodup) :
    es.foldlM set {} = .ok c ↔ GivesHooks (es.lookup "before") (es.lookup "after") (es.lookup "misc") c := by
  rw [foldlM_set_iff hd, givesHooks_iff, readAt_eq_ok fun _ _ => listOf_eq_ok, readAt_eq_ok fun _ _ => listOf_eq_ok,
    readAt_eq_ok fun _ _ => listOf_eq_ok]

theorem zip_items (items : List Data) :
    let es := ["before", "after", "misc"].zip items
    (es.map Prod.fst).Nodup ∧ es.lookup "before" = items[0]? ∧ es.lookup "after" = items[1]? ∧
      es.lookup "misc" = items[2]? := by
  match items with
  | [] => exact ⟨List.nodup_nil, rfl, rfl, rfl⟩
  | [_] => exact ⟨List.nodup_singleton _, rfl, rfl, rfl⟩
  | [_, _] => exact ⟨by simp, rfl, rfl, rfl⟩
  | _ :: _ :: _ :: _ => exact ⟨by simp, rfl, rfl, rfl⟩

theorem ofData_eq_ok (hd : d.Keyed) : ofData d = .ok h ↔ SaysHooks d h := by
  cases d with
  | table es =>
    rw [ofData, foldlM_set_eq_ok hd.nodup]
    exact ⟨.table, fun hs => by cases hs; assumption⟩
  | array items =>
    obtain ⟨hnodup, hbefore, hafter, hmisc⟩ := zip_items items
    rw [ofData, foldlM_set_eq_ok hnodup, hbefore, hafter, hmisc]
    exact ⟨.array, fun hs => by cases hs; assumption⟩
  | moment t =>
    rw [ofData, Except.ok.injEq]
    exact ⟨fun he => he ▸ .moment t, fun hs => by cases hs; rfl⟩
  | _ => exact iff_of_false nofun nofun

end ShellHooks

def IsList (d : Data) : Prop :=
  ∃ items, d = .array items ∧ ∀ item ∈ items, ∃ s, item = .text s

def IsHooks : Data → Prop
  | .table es => ∀ key ∈ ["before", "after", "misc"], ∀ d, es.lookup key = some d → IsList d
  | .array items => ∀ d ∈ items.take 3, IsList d
  | .moment _ => True
  | _ => False

section Shapes

variable {d : Data} {before after misc : Option Data} {h : ShellHooks}

theorem exists_saysList : (∃ vs, SaysList d vs) ↔ IsList d := by
  constructor
  · rintro ⟨vs, rfl⟩
    exact ⟨_, rfl, fun item hitem => let ⟨s, _, hs⟩ := List.mem_map.1 hitem; ⟨s, hs.symm⟩⟩
  · rintro ⟨items, rfl, hitems⟩
    induction items with
    | nil => exact ⟨[], rfl⟩
    | cons item items ih =>
      rw [List.forall_mem_cons] at hitems
      obtain ⟨⟨s, rfl⟩, hrest⟩ := hitems
      obtain ⟨vs, hvs⟩ := ih hrest
      exact ⟨s :: vs, congrArg (fun l => Data.array (.text s :: l)) (Data.array.inj hvs)⟩

theorem exists_givesHooks : (∃ h, GivesHooks before after misc h) ↔
    ∀ found ∈ [before, after, misc], ∀ d, found = some d → IsList d := by
  have hgiven (found : Option Data) : (∃ vs, Given SaysList found [] vs) ↔ ∀ d, found = some d → IsList d := by
    rw [Manifest.exists_given]
    simp only [exists_saysList]
  simp only [List.forall_mem_cons, ← hgiven]
  constructor
  · rintro ⟨h, hb, ha, hm⟩
    exact ⟨⟨_, hb⟩, ⟨_, ha⟩, ⟨_, hm⟩, nofun⟩
  · rintro ⟨⟨b, hb⟩, ⟨a, ha⟩, ⟨m, hm⟩, -⟩
    exact ⟨⟨b, a, m⟩, hb, ha, hm⟩

theorem exists_saysHooks : (∃ h, SaysHooks d h) ↔ IsHooks d := by
  cases d with
  | table es =>
    have hgives : (∃ h, SaysHooks (.table es) h) ↔
        ∃ h, GivesHooks (es.lookup "before") (es.lookup "after") (es.lookup "misc") h :=
      exists_congr fun h => ⟨fun hs => by cases hs; assumption, .table⟩
    rw [hgives, exists_givesHooks, IsHooks]
    simp
  | array items =>
    have hgives : (∃ h, SaysHooks (.array items) h) ↔ ∃ h, GivesHooks items[0]? items[1]? items[2]? h :=
      exists_congr fun h => ⟨fun hs => by cases hs; assumption, .array⟩
    rw [hgives, exists_givesHooks, IsHooks]
    match items with
    | [] => simp
    | [_] => simp
    | [_, _] => simp
    | _ :: _ :: _ :: _ => simp
  | moment t => exact iff_of_true ⟨{}, .moment t⟩ trivial
  | _ => exact iff_of_false nofun id

end Shapes

namespace Manifest

/-- What the entries say as a configuration: what is written under each known key, and the default where nothing is. -/
@[mk_iff]
structure Documented (es : List (String × Data)) (m : Manifest) : Prop where
  compiler : Given SaysText (es.lookup "compiler") "gcc" m.compiler
  name : Given SaysText (es.lookup "name") "App name" m.name
  output : Given SaysText (es.lookup "output") "app.exe" m.output
  flags : Given SaysList (es.lookup "flags") [] m.flags
  files : Given SaysList (es.lookup "files") [] m.files
  includes : Given SaysList (es.lookup "includes") [] m.includes
  libs : Given SaysList (es.lookup "libs") [] m.libs
  libraries : Given SaysList (es.lookup "libraries") [] m.libraries
  shell : Given SaysHooks (es.lookup "shell") {} m.shell

/-- Every known key that is there has a value of its type. -/
structure Accepted (es : List (String × Data)) : Prop where
  texts : ∀ key ∈ ["compiler", "name", "output"], ∀ d, es.lookup key = some d → ∃ s, d = .text s
  lists : ∀ key ∈ ["flags", "files", "includes", "libs", "libraries"], ∀ d, es.lookup key = some d → IsList d
  hooks : ∀ d, es.lookup "shell" = some d → IsHooks d

/-- The known keys have the same values, in whatever order and whatever there is besides. -/
structure Alike (es fs : List (String × Data)) : Prop where
  fields : ∀ key ∈ ["compiler", "name", "output", "flags", "files", "includes", "libs", "libraries"],
    es.lookup key = fs.lookup key
  hooks : es.lookup "shell" = fs.lookup "shell" ∨
    ∃ ts us, es.lookup "shell" = some (.table ts) ∧ fs.lookup "shell" = some (.table us) ∧
      ∀ key ∈ ["before", "after", "misc"], ts.lookup key = us.lookup key

section Parsing

variable {es fs : List (String × Data)} {m : Manifest} {s : String}

theorem reads_default_iff (hd : (Data.table es).Keyed) : Reads es {} m ↔ Documented es m := by
  have hshell : readAt ShellHooks.ofData es "shell" {} = .ok m.shell ↔
      Given SaysHooks (es.lookup "shell") {} m.shell :=
    readAt_eq_ok fun _ hlookup => ShellHooks.ofData_eq_ok (hd.lookup hlookup)
  have htext (key x y : String) : readAt textOf es key x = .ok y ↔ Given SaysText (es.lookup key) x y :=
    readAt_eq_ok fun _ _ => textOf_eq_ok
  have hlist (key : String) (x y : List String) :
      readAt listOf es key x = .ok y ↔ Given SaysList (es.lookup key) x y :=
    readAt_eq_ok fun _ _ => listOf_eq_ok
  rw [reads_iff, documented_iff, hshell, htext, htext, htext, hlist, hlist, hlist, hlist, hlist]

theorem accepted_iff : Accepted es ↔ ∃ m, Documented es m := by
  have htext {key : String} (x : String) :
      (∃ y, Given SaysText (es.lookup key) x y) ↔ ∀ d, es.lookup key = some d → ∃ y, d = .text y := exists_given x
  have hlist {key : String} :
      (∃ y, Given SaysList (es.lookup key) [] y) ↔ ∀ d, es.lookup key = some d → IsList d := by
    rw [exists_given]
    simp only [exists_saysList]
  have hhooks : (∃ y, Given SaysHooks (es.lookup "shell") {} y) ↔ ∀ d, es.lookup "shell" = some d → IsHooks d := by
    rw [exists_given]
    simp only [exists_saysHooks]
  constructor
  · rintro ⟨htexts, hlists, hshell⟩
    simp only [List.forall_mem_cons] at htexts hlists
    obtain ⟨compiler, hcompiler⟩ := (htext "gcc").2 htexts.1
    obtain ⟨name, hname⟩ := (htext "App name").2 htexts.2.1
    obtain ⟨output, houtput⟩ := (htext "app.exe").2 htexts.2.2.1
    obtain ⟨flags, hflags⟩ := hlist.2 hlists.1
    obtain ⟨files, hfiles⟩ := hlist.2 hlists.2.1
    obtain ⟨includes, hincludes⟩ := hlist.2 hlists.2.2.1
    obtain ⟨libs, hlibs⟩ := hlist.2 hlists.2.2.2.1
    obtain ⟨libraries, hlibraries⟩ := hlist.2 hlists.2.2.2.2.1
    obtain ⟨shell, hshell⟩ := hhooks.2 hshell
    exact ⟨⟨compiler, name, output, flags, files, includes, libs, libraries, shell⟩, hcompiler, hname, houtput, hflags,
      hfiles, hincludes, hlibs, hlibraries, hshell⟩
  · rintro ⟨m, h⟩
    refine ⟨?_, ?_, hhooks.1 ⟨_, h.shell⟩⟩
    · simp only [List.forall_mem_cons]
      exact ⟨(htext _).1 ⟨_, h.compiler⟩, (htext _).1 ⟨_, h.name⟩, (htext _).1 ⟨_, h.output⟩, nofun⟩
    · simp only [List.forall_mem_cons]
      exact ⟨hlist.1 ⟨_, h.flags⟩, hlist.1 ⟨_, h.files⟩, hlist.1 ⟨_, h.includes⟩, hlist.1 ⟨_, h.libs⟩,
        hlist.1 ⟨_, h.libraries⟩, nofun⟩

theorem Alike.documented (h : Alike es fs) : Documented es m ↔ Documented fs m := by
  have hshell : Given SaysHooks (es.lookup "shell") {} m.shell ↔ Given SaysHooks (fs.lookup "shell") {} m.shell := by
    obtain he | ⟨ts, us, hts, hus, hkeys⟩ := h.hooks
    · rw [he]
    · simp only [List.forall_mem_cons] at hkeys
      obtain ⟨hbefore, hafter, hmisc, -⟩ := hkeys
      rw [hts, hus]
      refine ⟨fun hs => ?_, fun hs => ?_⟩
      · cases hs with
        | table hs => exact .table (by rwa [hbefore, hafter, hmisc] at hs)
      · cases hs with
        | table hs => exact .table (by rwa [← hbefore, ← hafter, ← hmisc] at hs)
  have hfields := h.fields
  simp only [List.forall_mem_cons] at hfields
  obtain ⟨hcompiler, hname, houtput, hflags, hfiles, hincludes, hlibs, hlibraries, -⟩ := hfields
  rw [documented_iff, documented_iff, hcompiler, hname, houtput, hflags, hfiles, hincludes, hlibs, hlibraries, hshell]

theorem parse_of_read? (h : Toml.read? s.toList = some (.table es)) : parse s = .ok m ↔ Documented es m := by
  have hkeyed := Toml.read?_keyed h
  rw [← reads_default_iff hkeyed, ← foldlM_set_iff hkeyed.nodup]
  unfold parse ofEntries
  rw [h]
  cases hm : es.foldlM set {} <;> simp [Except.mapError, hm]

theorem parse_eq_ok : parse s = .ok m ↔
    ∃ es, Toml.read? s.toList = some (.table es) ∧ (Data.table es).Keyed ∧ Documented es m := by
  constructor
  · intro hm
    have hsome : ∃ es, Toml.read? s.toList = some (.table es) := by
      unfold parse at hm
      split at hm
      next es hes => exact ⟨es, hes⟩
      next => cases hm
    obtain ⟨es, hes⟩ := hsome
    exact ⟨es, hes, Toml.read?_keyed hes, (parse_of_read? hes).1 hm⟩
  · rintro ⟨es, hes, -, hm⟩
    exact (parse_of_read? hes).2 hm

/-- A text is a configuration when it is a document whose known keys have values of their types, and it says then what
is written there. What is written under other keys, and in which order, is all the same. -/
theorem parse_documented (s : String) :
    (∀ m, parse s = .ok m ↔
      ∃ es, Toml.read? s.toList = some (.table es) ∧ (Data.table es).Keyed ∧ Documented es m) ∧
    ((∃ m, parse s = .ok m) ↔
      ∃ es, Toml.read? s.toList = some (.table es) ∧ (Data.table es).Keyed ∧ Accepted es) ∧
    ∀ t es fs, Toml.read? s.toList = some (.table es) → Toml.read? t.toList = some (.table fs) → Alike es fs →
      ∀ m, parse s = .ok m ↔ parse t = .ok m := by
  refine ⟨fun m => parse_eq_ok, ?_, fun t es fs hs ht halike m => ?_⟩
  · simp only [parse_eq_ok, accepted_iff]
    exact exists_comm.trans (exists_congr fun es => by simp only [exists_and_left])
  · rw [parse_of_read? hs, parse_of_read? ht, halike.documented]

theorem parse_documented_reordered :
    ∃ es fs, Toml.read? "shell.y = 1\nshell.misc = [\"x\"]\nname = \"a\"".toList = some (.table es) ∧
      Toml.read? "name = \"a\"\n[shell]\nmisc = [\"x\"]\n[more]".toList = some (.table fs) ∧
      Alike es fs ∧ parse "name = \"a\"\n[shell]\nmisc = [\"x\"]\n[more]" =
        .ok { name := "a", shell := { misc := ["x"] } } := by
  have hread : Toml.read? "shell.y = 1\nshell.misc = [\"x\"]\nname = \"a\"".toList =
      some (.table [("shell", .table [("y", .integer 1), ("misc", .array [.text "x"])]), ("name", .text "a")]) := by cbv
  have hother : Toml.read? "name = \"a\"\n[shell]\nmisc = [\"x\"]\n[more]".toList =
      some (.table [("name", .text "a"), ("shell", .table [("misc", .array [.text "x"])]), ("more", .table [])]) := by
    cbv
  have halike : Alike [("shell", .table [("y", .integer 1), ("misc", .array [.text "x"])]), ("name", .text "a")]
      [("name", .text "a"), ("shell", .table [("misc", .array [.text "x"])]), ("more", .table [])] :=
    ⟨by simp [List.lookup], .inr ⟨_, _, rfl, rfl, by simp [List.lookup]⟩⟩
  refine ⟨_, _, hread, hother, halike, ?_⟩
  exact ((parse_documented _).2.2 _ _ _ hread hother halike _).1 (by cbv)

/-- Hooks that are no table: an array of the lists. -/
theorem parse_hooks_array : ¬((∃ m, parse "shell = [[\"a\"]]" = .ok m) ↔
    ∃ es, Toml.read? "shell = [[\"a\"]]".toList = some (.table es) ∧ Accepted es ∧
      ∀ d, es.lookup "shell" = some d → ∃ ts, d = .table ts) := by
  have hparse : parse "shell = [[\"a\"]]" = .ok { shell := { before := ["a"] } } := by cbv
  have hread : Toml.read? "shell = [[\"a\"]]".toList =
      some (.table [("shell", .array [.array [.text "a"]])]) := by cbv
  intro h
  obtain ⟨es, hes, -, htable⟩ := h.1 ⟨_, hparse⟩
  rw [hread] at hes
  cases hes
  obtain ⟨ts, hts⟩ := htable _ rfl
  cases hts

end Parsing

end Manifest

end CBuild
