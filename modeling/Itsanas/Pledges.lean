/-
# Pledges on one disk

`pledges.rs` of `itsanas-node`. Nodes whose vaults share a disk publish what they pledged and what
of it they hold, each in its home and in a shared directory if it has one; a pledge is then
compared with the free space less what the others still owe. The same node may be seen in both
places, and is recognised by its figures: a shared entry with the pledge, the held bytes and the
time of one already found is taken for it. Two nodes with the same figures are then taken for one
(`promised_twice`). Where no two nodes owe alike, what is found covers what is owed
(`owed_le_found`), and the disk is promised once over every run (`promised_once`).
-/
import Itsanas.Lib.Text
import Itsanas.Path
import Itsanas.Version

namespace Itsanas.Pledges

def staleAfterSecs : ℕ := 7 * 24 * 3600

def publishStep : ℕ := 3600

def maxStateBytes : ℕ := 256

/-- What one node says it promised, and where that was read. -/
structure Promise where
  source : Str
  pledge : ℕ
  held : ℕ
  updated : ℕ
  deriving DecidableEq

def Promise.figures (p : Promise) : ℕ × ℕ × ℕ := (p.pledge, p.held, p.updated)

/-- What a promise still needs from the free space. -/
def Promise.owed (p : Promise) : ℕ := p.pledge - p.held

/-! ### The state file -/

def field (key : Str) (n : ℕ) : Str := key ++ '=' :: Nat.toDigits 10 n

def render (pledge held now : ℕ) : Str :=
  field "pledge".toList pledge ++ '\n' :: (field "held".toList held ++ '\n' ::
    (field "updated".toList now ++ '\n' :: []))

/-- The start of a state file, if there is one. -/
def readState (file : Option Str) : Option Str := file.map (List.take maxStateBytes)

/-- The figures read so far. -/
structure Figures where
  pledge : Option ℕ
  held : Option ℕ
  updated : Option ℕ

def readLine (f : Figures) (line : Str) : Option Figures :=
  match Text.splitOnce '=' line with
  | none => none
  | some (key, value) =>
    match Text.parseUnsigned u64Max (Text.trim value) with
    | none => none
    | some n =>
      if Text.trim key = "pledge".toList then some { f with pledge := some n }
      else if Text.trim key = "held".toList then some { f with held := some n }
      else if Text.trim key = "updated".toList then some { f with updated := some n }
      else some f

def parseFigures (text : Str) : Option (ℕ × ℕ × ℕ) :=
  match (Text.lines text).foldlM readLine ⟨none, none, none⟩ with
  | some ⟨some pledge, some held, some updated⟩ => some (pledge, held, updated)
  | _ => none

def parse (text source : Str) : Option Promise :=
  (parseFigures text).map fun (pledge, held, updated) => ⟨source, pledge, held, updated⟩

/-- A node's own last published promise. -/
def own (home : Option Str) :
    Option Promise := (readState home).bind fun text => parse text "this node".toList

/-- Publish a promise: the files in the home, and in the shared directory if there is one. What
was stamped less than an hour ago is not written again. -/
def publish (home : Option Str) (shared : Option (Option Str)) (pledge held now : ℕ) :
    Option Str × Option (Option Str) :=
  let unchanged := (own home).any fun was =>
    was.pledge = pledge ∧ was.held = held ∧ was.updated ≤ now ∧ now - was.updated < publishStep
  if unchanged && shared.all Option.isSome then (home, shared)
  else (some (render pledge held now), shared.map fun _ => some (render pledge held now))

/-! ### What the others promised -/

def fileOf (device : Str) : Str := device ++ ".state".toList

/-- One entry of the shared directory. -/
def addShared (device : Str) (now : ℕ) (found : List Promise × List Str) (entry : Str × Str) :
    List Promise × List Str :=
  if entry.1 = fileOf device then found
  else match (readState (some entry.2)).bind
      fun text => parse text ("node ".toList ++ entry.1.take 8 ++ "... (shared)".toList) with
    | none => found
    | some promise =>
      if staleAfterSecs < now - promise.updated then (found.1, found.2 ++ [promise.source])
      else if found.1.any fun f => f.figures = promise.figures then found
      else (found.1 ++ [promise], found.2)

/-- The others' promises, and the shared entries skipped as stale: `homes` are the instances
beside this one with their state files, `dir` the files of the shared directory. -/
def others (homes : List (Str × Option Str)) (dir : List (Str × Str)) (device : Str) (now : ℕ) :
    List Promise × List Str :=
  dir.foldl (addShared device now) (homes.filterMap fun (name, file) =>
    (readState file).bind fun text => parse text ("instance ".toList ++ name), [])

/-- The most a node may pledge. -/
def room (free held : ℕ) (others : List Promise) : ℕ :=
  saturatingAdd free held - others.foldl (fun total p => saturatingAdd total p.owed) 0

/-- A promise the disk cannot keep. -/
structure DiskRefusal where
  bytes : ℕ
  free : ℕ
  held : ℕ
  room : ℕ
  others : List Promise
  stale : List Str
  deriving DecidableEq

def diskRefusal (bytes : ℕ) (free : Option ℕ) (held : ℕ) (others : List Promise) (stale : List Str) :
    Option DiskRefusal :=
  free.bind fun free =>
    if room free held others < bytes then some
      ⟨bytes, free, held, room free held others, others, stale⟩
    else none

/-! ### The nodes of one disk -/

/-- Who is on the disk: whose homes stand beside whose, under which names, and who was given which
shared directory. -/
structure Site (δ : Type) where
  nodes : Finset Str
  beside : Str → Str → Bool
  named : Str → Str
  shared : Str → Option δ

/-- Everyone sees everyone else's home, or entry. -/
def Site.Visible {δ : Type} (site : Site δ) : Prop :=
  ∀ a ∈ site.nodes, ∀ b ∈ site.nodes, a ≠ b →
    site.beside a b = true ∨ ∃ s, site.shared a = some s ∧ site.shared b = some s

/-- The disk: what is free, each node's pledge and what it holds, and the state files. -/
structure Disk (δ : Type) where
  free : ℕ
  pledge : Str → ℕ
  held : Str → ℕ
  home : Str → Option Str
  entry : δ → Str → Option Str

/-- Before anyone has pledged. -/
def Disk.fresh (δ : Type) (free : ℕ) (held : Str → ℕ) : Disk δ :=
  ⟨free, fun _ => 0, held, fun _ => none, fun _ _ => none⟩

/-- What the nodes do: set a pledge, having found the homes and the entries in some order; store
some of what was promised; publish again. -/
inductive Act
  | set (device : Str) (bytes now : ℕ) (homes dir : List Str)
  | store (device : Str) (bytes : ℕ)
  | publish (device : Str) (now : ℕ)

section
variable {δ : Type} [DecidableEq δ] (site : Site δ)

/-- The entry of `d` in the shared directory of `device`. -/
def Disk.entryFor (disk : Disk δ) (device d : Str) : Option Str :=
  (site.shared device).bind fun s => disk.entry s d

def Disk.othersOf (disk : Disk δ) (device : Str) (now : ℕ) (homes dir : List Str) :
    List Promise × List Str :=
  others (homes.map fun d => (site.named d, disk.home d))
    (dir.filterMap fun d => (disk.entryFor site device d).map fun text => (fileOf d, text)) device now

def Disk.publish (disk : Disk δ) (device : Str) (now : ℕ) : Disk δ :=
  let files :=
    Pledges.publish (disk.home device) ((site.shared device).map fun s => disk.entry s device)
    (disk.pledge device) (disk.held device) now
  { disk with
    home := Function.update disk.home device files.1
    entry := fun s d =>
      if site.shared device = some s ∧ d = device then files.2.bind id else disk.entry s d }

/-- A pledge is accepted when `diskRefusal` finds nothing, and published right after. -/
def Disk.step (disk : Disk δ) : Act → Disk δ
  | .set device bytes now homes dir =>
    let (promises, stale) := disk.othersOf site device now homes dir
    if (diskRefusal bytes (some disk.free) (disk.held device) promises stale).isNone then
      ({ disk with pledge := Function.update disk.pledge device bytes } : Disk δ).publish site
        device now
    else disk
  | .store device bytes =>
    { disk with
      free := disk.free - bytes
      held := Function.update disk.held device (disk.held device + bytes) }
  | .publish device now => disk.publish site device now

/-- What is listed: the homes beside this one, and the entries of its shared directory. -/
structure Listed (disk : Disk δ) (device : Str) (homes dir : List Str) : Prop where
  homes_nodup : homes.Nodup
  mem_homes : ∀ d, d ∈ homes ↔ d ∈ site.nodes ∧ d ≠ device ∧ site.beside device d = true
  mem_dir : ∀ d, d ∈ dir ↔ (disk.entryFor site device d).isSome

/-- What may happen: a node's own acts, nothing read being stale, and no more stored than was
promised. -/
def Allowed (disk : Disk δ) : Act → Prop
  | .set device bytes now homes dir =>
    device ∈ site.nodes ∧ bytes ≤ u64Max ∧ now ≤ u64Max ∧ Listed site disk device homes dir ∧
      (disk.othersOf site device now homes dir).2 = []
  | .store device bytes =>
    device ∈ site.nodes ∧ bytes ≤ disk.pledge device - disk.held device ∧ bytes ≤ disk.free
  | .publish device now => device ∈ site.nodes ∧ now ≤ u64Max

/-- Whenever a pledge is set, no two of the other nodes have published the same figures and owe
something, unless both their homes are seen. -/
def Apart (disk : Disk δ) : Act → Prop
  | .set device _ _ _ _ => ∀ b ∈ site.nodes, ∀ c ∈ site.nodes, b ≠ device → c ≠ device → b ≠ c →
      ∀ p ∈ own (disk.home b), ∀ q ∈ own (disk.home c), p.figures = q.figures → 0 < p.owed →
        site.beside device b = true ∧ site.beside device c = true
  | _ => True

/-- The disks reached by acts that are `ok`. -/
inductive Reached (ok : Disk δ → Act → Prop) (start : Disk δ) : Disk δ → Prop
  | start : Reached ok start start
  | step {disk act} (before : Reached ok start disk) (h : ok disk act) :
      Reached ok start (disk.step site act)

/-- What all nodes together still need from the free space. -/
def Disk.owed (disk : Disk δ) : ℕ := ∑ d ∈ site.nodes, (disk.pledge d - disk.held d)

end

/-! ### Reading back what was published -/

theorem trim_toDigits (n : ℕ) : Text.trim (Nat.toDigits 10 n) = Nat.toDigits 10 n :=
  Text.trim_of_tight (Text.tight_toDigits n)

theorem not_mem_toDigits {c : Char} (h : c.isDigit = false) (n : ℕ) :
    c ∉ Nat.toDigits 10 n := fun hmem => by
  rw [Text.isDigit_toDigits hmem] at h
  cases h

theorem lines_field {key : Str} (hkey : '\n' ∉ key) (n : ℕ) (rest : Str) :
    Text.lines (field key n ++ '\n' :: rest) = field key n :: Text.lines rest := by
  refine Text.lines_line ?_ ?_ rest
  · intro hmem
    rcases List.mem_append.mp hmem with hmem | hmem
    · exact hkey hmem
    · rcases List.mem_cons.mp hmem with he | hmem
      · exact absurd he (by decide)
      · exact not_mem_toDigits (by decide) n hmem
  · intro hlast
    have hmem : '\r' ∈ Nat.toDigits 10 n := by
      rw [field, List.getLast?_append_of_ne_nil _ (List.cons_ne_nil _ _),
        List.getLast?_cons_of_ne_nil Nat.toDigits_ne_nil] at hlast
      exact List.mem_of_getLast? hlast
    exact not_mem_toDigits (by decide) n hmem

theorem readLine_field {key : Str} (hkey : '=' ∉ key) (htight : Text.trim key = key) {n : ℕ}
    (hn : n ≤ u64Max) (f : Figures) :
    readLine f (field key n) =
      if key = "pledge".toList then some { f with pledge := some n }
      else if key = "held".toList then some { f with held := some n }
      else if key = "updated".toList then some { f with updated := some n }
      else some f := by
  rw [readLine, field, Text.splitOnce_append _ hkey]
  simp only [trim_toDigits, Text.parseUnsigned_toDigits hn, htight]

theorem length_toDigits_le {n : ℕ} (h : n ≤ u64Max) : (Nat.toDigits 10 n).length ≤ 20 :=
  Nat.toDigits_length 10 n 20 (by decide) (lt_of_le_of_lt h (by decide))

theorem length_render {pledge held now : ℕ} (hpledge : pledge ≤ u64Max) (hheld : held ≤ u64Max)
    (hnow : now ≤ u64Max) : (render pledge held now).length ≤ maxStateBytes := by
  have h₁ := length_toDigits_le hpledge
  have h₂ := length_toDigits_le hheld
  have h₃ := length_toDigits_le hnow
  simp [render, field, maxStateBytes]
  omega

/-- **What is published is read back.** -/
theorem parseFigures_render {pledge held now : ℕ} (hpledge : pledge ≤ u64Max)
    (hheld : held ≤ u64Max) (hnow : now ≤ u64Max) :
    (readState (some (render pledge held now))).bind parseFigures = some (pledge, held, now) := by
  have hwhole : readState (some (render pledge held now)) = some (render pledge held now) := by
    rw [readState, Option.map_some, List.take_of_length_le (length_render hpledge hheld hnow)]
  have hlines : Text.lines (render pledge held now) =
      [field "pledge".toList pledge, field "held".toList held, field "updated".toList now] := by
    rw [render, lines_field (by decide), lines_field (by decide), lines_field (by decide)]
    rfl
  have hread : (Text.lines (render pledge held now)).foldlM readLine ⟨none, none, none⟩ =
      some ⟨some pledge, some held, some now⟩ := by
    rw [hlines, List.foldlM_cons, readLine_field (by decide) (by decide) hpledge, if_pos rfl]
    simp only [Option.bind_eq_bind, Option.bind_some]
    rw [List.foldlM_cons, readLine_field (by decide) (by decide) hheld, if_neg (by decide), if_pos rfl]
    simp only [Option.bind_eq_bind, Option.bind_some]
    rw [List.foldlM_cons, readLine_field (by decide) (by decide) hnow, if_neg (by decide),
      if_neg (by decide),
      if_pos rfl]
    rfl
  rw [hwhole, Option.bind_some, parseFigures, hread]

/-- What a state file says. -/
def told (file : Option Str) : Option (ℕ × ℕ × ℕ) := (readState file).bind parseFigures

def owes (figures : ℕ × ℕ × ℕ) : ℕ := figures.1 - figures.2.1

theorem bind_parse (file : Option Str) (source : Str) :
    (readState file).bind (fun text => parse text source) =
      (told file).map fun (pledge, held, updated) => ⟨source, pledge, held, updated⟩ := by
  cases file <;> rfl

theorem own_figures (file : Option Str) : (own file).map Promise.figures = told file := by
  rw [own, bind_parse, Option.map_map]
  exact Option.map_id'

/-! ### What is found -/

theorem addShared_found (device : Str) (now : ℕ) (found : List Promise × List Str)
    (entry : Str × Str) :
    found.1 <+: (addShared device now found entry).1 ∧
      found.2 <+: (addShared device now found entry).2 := by
  unfold addShared
  split_ifs
  · exact ⟨List.prefix_rfl, List.prefix_rfl⟩
  · split
    · exact ⟨List.prefix_rfl, List.prefix_rfl⟩
    · split_ifs
      · exact ⟨List.prefix_rfl, List.prefix_append _ _⟩
      · exact ⟨List.prefix_rfl, List.prefix_rfl⟩
      · exact ⟨List.prefix_append _ _, List.prefix_rfl⟩

variable {device : Str} {now : ℕ}

/-- After another's entry its figures are among those found, unless it was stale. -/
theorem addShared_figures {found : List Promise × List Str} {entry : Str × Str}
    (hfile : entry.1 ≠ fileOf device) {figures : ℕ × ℕ × ℕ}
    (htold : told (some entry.2) = some figures)
    (hfresh : (addShared device now found entry).2 = []) :
    figures ∈ (addShared device now found entry).1.map Promise.figures := by
  unfold addShared at hfresh ⊢
  rw [if_neg hfile, bind_parse, htold] at hfresh ⊢
  dsimp only [Option.map_some] at hfresh ⊢
  split_ifs at hfresh ⊢ with hstale hsame
  · exact absurd (List.append_eq_nil_iff.mp hfresh).2 (List.cons_ne_nil _ _)
  · obtain ⟨f, hf, hfigures⟩ := List.any_eq_true.mp hsame
    exact List.mem_map.mpr ⟨f, hf, of_decide_eq_true hfigures⟩
  · rw [List.map_append]
    exact List.mem_append_right _ (List.mem_singleton_self _)

theorem foldl_addShared (device : Str) (now : ℕ) :
    ∀ (dir : List (Str × Str)) (found : List Promise × List Str),
    found.1 <+: (dir.foldl (addShared device now) found).1 ∧
      found.2 <+: (dir.foldl (addShared device now) found).2 ∧
      ((dir.foldl (addShared device now) found).2 = [] → ∀ entry ∈ dir, entry.1 ≠ fileOf device →
        ∀ figures, told (some entry.2) = some figures →
          figures ∈ (dir.foldl (addShared device now) found).1.map Promise.figures)
  | [], found => ⟨List.prefix_rfl, List.prefix_rfl, fun _ _ h => absurd h List.not_mem_nil⟩
  | entry :: dir, found => by
    obtain ⟨hfound, hstale⟩ := addShared_found device now found entry
    obtain ⟨hmore, hmoreStale, hall⟩ :=
      foldl_addShared device now dir (addShared device now found entry)
    refine ⟨hfound.trans hmore, hstale.trans hmoreStale, fun hfresh e he hfile figures htold => ?_⟩
    rcases List.mem_cons.mp he with rfl | he
    · rw [List.foldl_cons] at hfresh
      have hnone : (addShared device now found e).2 = [] := List.prefix_nil.mp (hfresh ▸ hmoreStale)
      exact (hmore.map Promise.figures).subset (addShared_figures hfile htold hnone)
    · exact hall hfresh e he hfile figures htold

/-- Distinct figures, all in a list, owe no more than the list. -/
theorem sum_owes_le {α : Type} [DecidableEq α] {S : Finset α} {F : α → ℕ × ℕ × ℕ}
    (hinj : Set.InjOn F S)
    {l : List (ℕ × ℕ × ℕ)} (hmem : ∀ a ∈ S, F a ∈ l) : ∑ a ∈ S, owes (F a) ≤ (l.map owes).sum := by
  calc ∑ a ∈ S, owes (F a) = ∑ x ∈ S.image F, owes x := (Finset.sum_image hinj).symm
    _ ≤ ∑ x ∈ l.toFinset, owes x := by
        refine Finset.sum_le_sum_of_subset fun x hx => ?_
        obtain ⟨a, ha, rfl⟩ := Finset.mem_image.mp hx
        exact List.mem_toFinset.mpr (hmem a ha)
    _ = (l.dedup.map owes).sum := by
        rw [← List.sum_toFinset owes l.nodup_dedup]
        exact Finset.sum_congr (Finset.ext (by simp)) fun _ _ => rfl
    _ ≤ (l.map owes).sum := (l.dedup_sublist.map owes).sum_le_sum fun _ _ => Nat.zero_le _

theorem sum_filterMap_owes {α : Type} (F : α → Option (ℕ × ℕ × ℕ)) :
    ∀ l : List α, ((l.filterMap F).map owes).sum = (l.map fun a => (F a).elim 0 owes).sum
  | [] => rfl
  | a :: l => by
    cases h : F a with
    | none => simp [h, sum_filterMap_owes F l]
    | some x => simp [h, sum_filterMap_owes F l]

/-! ### What is owed -/

variable {bytes now : ℕ}

section
variable {δ : Type} {site : Site δ} {disk : Disk δ}

/-- The node's files say its pledge, and no more than it holds. -/
def Published (site : Site δ) (disk : Disk δ) (d : Str) : Prop :=
  ∃ held now, held ≤ disk.held d ∧ now ≤ u64Max ∧
    disk.home d = some (render (disk.pledge d) held now) ∧
    ∀ s, site.shared d = some s → disk.entry s d = disk.home d

/-- What holds between any two acts: a node has published what it pledged, or pledged nothing. -/
structure Sound (site : Site δ) (disk : Disk δ) : Prop where
  held : ∀ d, disk.held d ≤ u64Max
  pledge : ∀ d, disk.pledge d ≤ u64Max
  files : ∀ d, disk.home d = none ∧ disk.pledge d = 0 ∨ Published site disk d

/-- A node owes no more than its file says. -/
theorem Sound.owed_le (h : Sound site disk) (d : Str) :
    disk.pledge d - disk.held d ≤ (told (disk.home d)).elim 0 owes := by
  rcases h.files d with ⟨-, hpledge⟩ | ⟨held, now, hheld, hnow, hhome, -⟩
  · rw [hpledge, Nat.zero_sub]
    exact Nat.zero_le _
  · have htold : told (disk.home d) = some (disk.pledge d, held, now) := by
      rw [hhome]
      exact parseFigures_render (h.pledge d) (hheld.trans (h.held d)) hnow
    rw [htold]
    exact Nat.sub_le_sub_left hheld _

variable {homes dir : List Str}

/-- Two nodes that owe alike are both seen through their homes. -/
theorem Apart.beside
    (h : Apart site disk (.set device bytes now homes dir)) {b c : Str} (hb : b ∈ site.nodes)
    (hc : c ∈ site.nodes) (hbd : b ≠ device) (hcd : c ≠ device) (hne : b ≠ c) {figures : ℕ × ℕ × ℕ}
    (htoldb : told (disk.home b) = some figures) (htoldc : told (disk.home c) = some figures)
    (howes : 0 < owes figures) : site.beside device b = true := by
  rw [← own_figures] at htoldb htoldc
  obtain ⟨p, hp, rfl⟩ := Option.map_eq_some_iff.mp htoldb
  obtain ⟨q, hq, hfigures⟩ := Option.map_eq_some_iff.mp htoldc
  exact (h b hb c hc hbd hcd hne p hp q hq hfigures.symm howes).1

/-- What is found are the figures in the homes, then others; and every entry's are among them. -/
theorem othersOf_figures (device : Str) (now : ℕ) (homes dir : List Str) :
    (∃ more, (disk.othersOf site device now homes dir).1.map Promise.figures =
      homes.filterMap (fun d => told (disk.home d)) ++ more) ∧
    ((disk.othersOf site device now homes dir).2 = [] → ∀ d ∈ dir, d ≠ device →
      ∀ figures, told (disk.entryFor site device d) = some figures →
        figures ∈ (disk.othersOf site device now homes dir).1.map Promise.figures) := by
  obtain ⟨⟨more, hmore⟩, -, hall⟩ := foldl_addShared device now
    (dir.filterMap fun d => (disk.entryFor site device d).map fun text => (fileOf d, text))
    ((homes.map fun d => (site.named d, disk.home d)).filterMap fun (name, file) =>
      (readState file).bind fun text => parse text ("instance ".toList ++ name), [])
  refine ⟨⟨more.map Promise.figures, ?_⟩, fun hfresh d hd hne figures htold => ?_⟩
  · rw [Disk.othersOf, others, ← hmore, List.map_append, List.filterMap_map, List.map_filterMap]
    refine congrArg (· ++ _) (List.filterMap_congr fun d _ => ?_)
    dsimp only [Function.comp_apply]
    rw [bind_parse, Option.map_map]
    exact Option.map_id'
  · cases htext : disk.entryFor site device d with
    | none => rw [htext] at htold; cases htold
    | some text =>
      refine hall hfresh (fileOf d, text) (List.mem_filterMap.mpr ⟨d, hd, by rw [htext]; rfl⟩) ?_
        figures
        (htext ▸ htold)
      exact fun he => hne (List.append_cancel_right he)

/-- What the homes beside this one say is counted once each. -/
theorem sum_homes (hlisted : Listed site disk device homes dir) :
    ∑ d ∈ (site.nodes.erase device).filter (fun d => site.beside device d = true),
        (told (disk.home d)).elim 0 owes =
      ((homes.filterMap fun d => told (disk.home d)).map owes).sum := by
  have hnodes : (site.nodes.erase device).filter (fun d => site.beside device d = true) =
      homes.toFinset := by
    ext d
    rw [Finset.mem_filter, Finset.mem_erase, List.mem_toFinset, hlisted.mem_homes]
    tauto
  rw [hnodes, sum_filterMap_owes, List.sum_toFinset _ hlisted.homes_nodup]

/-- **What is found covers what is owed.** -/
theorem owed_le_found (hvisible : site.Visible) (h : Sound site disk)
    (hdevice : device ∈ site.nodes) (hlisted : Listed site disk device homes dir)
    (hfresh : (disk.othersOf site device now homes dir).2 = [])
    (hapart : Apart site disk (.set device bytes now homes dir)) :
    ∑ d ∈ site.nodes.erase device, (disk.pledge d - disk.held d) ≤
      ((disk.othersOf site device now homes dir).1.map Promise.owed).sum := by
  obtain ⟨⟨more, hmore⟩, hall⟩ := @othersOf_figures δ site disk device now homes dir
  set far := (site.nodes.erase device).filter fun d => ¬ site.beside device d = true with hfar
  -- of those whose homes are not seen, the ones that owe something
  set owing := far.filter fun d => (told (disk.home d)).elim 0 owes ≠ 0 with howing
  have hnode : ∀ d ∈ owing, (d ∈ site.nodes ∧ d ≠ device ∧ ¬ site.beside device d = true) ∧
      ∃ figures, told (disk.home d) = some figures ∧ 0 < owes figures := by
    intro d hd
    obtain ⟨hd, howes⟩ := Finset.mem_filter.mp hd
    obtain ⟨hd, hbeside⟩ := Finset.mem_filter.mp hd
    refine ⟨⟨Finset.mem_of_mem_erase hd, Finset.ne_of_mem_erase hd, hbeside⟩, ?_⟩
    cases htold : told (disk.home d) with
    | none => exact absurd (by rw [htold]; rfl) howes
    | some figures => exact ⟨figures, rfl, Nat.pos_of_ne_zero (by rwa [htold] at howes)⟩
  have hmem : ∀ d ∈ owing, ((told (disk.home d)).getD (0, 0, 0)) ∈ more := by
    intro d hd
    obtain ⟨⟨hd, hne, hbeside⟩, figures, htold, howes⟩ := hnode d hd
    have hpublished : Published site disk d := by
      refine (h.files d).resolve_left fun hnone => ?_
      rw [hnone.1] at htold
      cases htold
    obtain ⟨s, hs, hs'⟩ := (hvisible device hdevice d hd hne.symm).resolve_left hbeside
    obtain ⟨held, stamp, _, _, hhome, hentry⟩ := hpublished
    have hentryFor : disk.entryFor site device d = disk.home d := by
      rw [Disk.entryFor, hs]
      exact hentry s hs'
    have hdir : d ∈ dir := (hlisted.mem_dir d).mpr (by rw [hentryFor, hhome]; rfl)
    have hfound := hall hfresh d hdir hne figures (hentryFor ▸ htold)
    rw [htold, Option.getD_some]
    rw [hmore] at hfound
    refine (List.mem_append.mp hfound).resolve_left fun hhomes => ?_
    obtain ⟨c, hc, htoldc⟩ := List.mem_filterMap.mp hhomes
    obtain ⟨hcnode, hcne, hcbeside⟩ := (hlisted.mem_homes c).mp hc
    have hdc : d ≠ c := fun he => hbeside (he ▸ hcbeside)
    exact hbeside (hapart.beside hd hcnode hne hcne hdc htold htoldc howes)
  have hinj : Set.InjOn (fun d => (told (disk.home d)).getD (0, 0, 0)) owing := by
    intro b hb c hc he
    obtain ⟨⟨hb, hbne, hbeside⟩, figures, htoldb, howes⟩ := hnode b hb
    obtain ⟨⟨hc, hcne, -⟩, figures', htoldc, -⟩ := hnode c hc
    by_contra hne
    dsimp only at he
    rw [htoldb, htoldc, Option.getD_some, Option.getD_some] at he
    exact hbeside (hapart.beside hb hc hbne hcne hne htoldb (he ▸ htoldc) howes)
  have howing_sum : ∑ d ∈ far, (told (disk.home d)).elim 0 owes =
      ∑ d ∈ owing, owes ((told (disk.home d)).getD (0, 0, 0)) := by
    rw [← Finset.sum_filter_ne_zero]
    refine Finset.sum_congr rfl fun d hd => ?_
    obtain ⟨-, figures, htold, -⟩ := hnode d hd
    rw [htold]
    rfl
  have howed : (disk.othersOf site device now homes dir).1.map Promise.owed =
      ((disk.othersOf site device now homes dir).1.map Promise.figures).map owes := by
    rw [List.map_map]
    rfl
  calc ∑ d ∈ site.nodes.erase device, (disk.pledge d - disk.held d)
      ≤ ∑ d ∈ site.nodes.erase device, (told (disk.home d)).elim 0 owes :=
        Finset.sum_le_sum fun d _ => h.owed_le d
    _ = ((homes.filterMap fun d => told (disk.home d)).map owes).sum +
          ∑ d ∈ owing, owes ((told (disk.home d)).getD (0, 0, 0)) := by
        rw [← Finset.sum_filter_add_sum_filter_not _ fun d => site.beside device d =
          true, sum_homes hlisted,
          howing_sum]
    _ ≤ ((homes.filterMap fun d => told (disk.home d)).map owes).sum + (more.map owes).sum :=
        Nat.add_le_add_left (sum_owes_le hinj hmem) _
    _ = ((disk.othersOf site device now homes dir).1.map Promise.owed).sum := by
        rw [howed, hmore, List.map_append, List.sum_append]

/-! ### Each act -/

variable [DecidableEq δ]

/-- The sum that saturates is the sum, or the most there is. -/
theorem foldl_owed (l : List Promise) : ∀ total, total ≤ u64Max →
    l.foldl (fun total p => saturatingAdd total p.owed) total =
      min (total + (l.map Promise.owed).sum) u64Max := by
  induction l with
  | nil =>
    intro total h
    simpa using h
  | cons p l ih =>
    intro total h
    rw [List.foldl_cons, ih (saturatingAdd total p.owed) (min_le_right _ _), List.map_cons,
      List.sum_cons, saturatingAdd]
    omega

/-- What may be pledged fits beside what was found, or is nothing. -/
theorem le_room {bytes free held : ℕ} {promises : List Promise} (h : bytes ≤ room free held promises) :
    bytes = 0 ∨ bytes + (promises.map Promise.owed).sum ≤ free + held := by
  rw [room, foldl_owed promises 0 (Nat.zero_le _), saturatingAdd] at h
  omega

theorem diskRefusal_isNone {bytes free held : ℕ} {promises : List Promise} {stale : List Str} :
    (diskRefusal bytes (some free) held promises stale).isNone = true ↔ bytes ≤
      room free held promises := by
  unfold diskRefusal
  simp only [Option.bind_some]
  split_ifs with h
  · simpa using h
  · simpa using h

/-- The files of a node are as `publish` leaves them, whatever it pledged then. -/
def Written (site : Site δ) (disk : Disk δ) (d : Str) : Prop :=
  disk.home d = none ∨ ∃ pledge held stamp, pledge ≤ u64Max ∧ held ≤ u64Max ∧ stamp ≤ u64Max ∧
    disk.home d = some (render pledge held stamp) ∧ ∀ s, site.shared d = some s →
      disk.entry s d = disk.home d

omit [DecidableEq δ] in
theorem Sound.written (h : Sound site disk) (d : Str) : Written site disk d := by
  rcases h.files d with ⟨hnone, -⟩ | ⟨held, stamp, hheld, hstamp, hhome, hentry⟩
  · exact Or.inl hnone
  · exact Or.inr ⟨_, held, stamp, h.pledge d, hheld.trans (h.held d), hstamp, hhome, hentry⟩

/-- A publication is not repeated only if it would say the same. -/
theorem published_publish {d : Str} (hnow : now ≤ u64Max) (hwritten : Written site disk d) :
    Published site (disk.publish site d now) d := by
  have hhome : (disk.publish site d now).home d = (Pledges.publish (disk.home d)
      ((site.shared d).map fun s => disk.entry s d) (disk.pledge d) (disk.held d) now).1 :=
    Function.update_self ..
  have hentry : ∀ s, site.shared d = some s → (disk.publish site d now).entry s d =
    (Pledges.publish (disk.home d)
      ((site.shared d).map fun s => disk.entry s d) (disk.pledge d) (disk.held d) now).2.bind id :=
    fun s hs => if_pos ⟨hs, rfl⟩
  unfold Pledges.publish at hhome hentry
  dsimp only at hhome hentry
  split_ifs at hhome hentry with hsame
  · obtain ⟨hunchanged, -⟩ := Bool.and_eq_true_iff.mp hsame
    rcases hwritten with hnone | ⟨pledge, held, stamp, hpledge, hheld, hstamp, hrender, hshared⟩
    · rw [hnone] at hunchanged
      cases hunchanged
    · have htold : told (disk.home d) = some (pledge, held, stamp) := by
        rw [hrender]
        exact parseFigures_render hpledge hheld hstamp
      rw [own, bind_parse, htold] at hunchanged
      obtain ⟨hpl, hhe, -⟩ := of_decide_eq_true hunchanged
      dsimp only at hpl hhe
      refine ⟨held, stamp, hhe.le, hstamp, ?_, fun s hs => ?_⟩
      · rw [hhome, hrender, hpl]
        rfl
      · rw [hentry s hs, hhome, ← hshared s hs, hs]
        rfl
  · refine ⟨disk.held d, now, le_rfl, hnow, hhome, fun s hs => ?_⟩
    rw [hentry s hs, hhome, hs]
    rfl

/-- Publishing makes good for a pledge that was just set. -/
theorem sound_publish (hnow : now ≤ u64Max) (hheld : ∀ d, disk.held d ≤ u64Max)
    (hpledge : ∀ d, disk.pledge d ≤ u64Max) (hwritten : Written site disk device)
    (hothers : ∀ d, d ≠ device → disk.home d = none ∧ disk.pledge d = 0 ∨ Published site disk d) :
    Sound site (disk.publish site device now) := by
  refine ⟨hheld, hpledge, fun d => ?_⟩
  by_cases hd : d = device
  · subst hd
    exact Or.inr (published_publish hnow hwritten)
  · have hhome : (disk.publish site device now).home d = disk.home d := Function.update_of_ne hd ..
    have hentry : ∀ s, (disk.publish site device now).entry s d = disk.entry s d :=
      fun s => if_neg fun h => hd h.2
    refine (hothers d hd).imp (fun h => ⟨hhome.trans h.1, h.2⟩) ?_
    rintro ⟨held, stamp, hle, hstamp, hrender, hshared⟩
    exact ⟨held, stamp, hle, hstamp, hhome.trans hrender,
      fun s hs => by rw [hentry, hhome, hshared s hs]⟩

/-- What every act keeps. -/
structure Safe (site : Site δ) (disk : Disk δ) : Prop extends Sound site disk where
  owed : disk.owed site ≤ disk.free

omit [DecidableEq δ] in
theorem safe_fresh {free : ℕ} {held : Str → ℕ} (hheld : ∀ d, held d ≤ u64Max) :
    Safe site (Disk.fresh δ free held) where
  held := hheld
  pledge _ := Nat.zero_le _
  files _ := Or.inl ⟨rfl, rfl⟩
  owed := by simp [Disk.owed, Disk.fresh]

/-- A pledge that was accepted. -/
theorem Safe.set (hvisible : site.Visible) (h : Safe site disk)
    (hallowed : Allowed site disk (.set device bytes now homes dir))
    (hapart : Apart site disk (.set device bytes now homes dir))
    (haccepted : bytes ≤
      room disk.free (disk.held device) (disk.othersOf site device now homes dir).1) :
    Safe site (({ disk with pledge := Function.update disk.pledge device bytes } : Disk δ).publish
      site device now) := by
  obtain ⟨hdevice, hbytes, hnow, hlisted, hfresh⟩ := hallowed
  have hpledge : ∀ d, d ≠ device → Function.update disk.pledge device bytes d = disk.pledge d :=
    fun d hd => Function.update_of_ne hd ..
  refine { toSound := sound_publish hnow h.held ?_ (h.written device) ?_, owed := ?_ }
  · intro d
    by_cases hd : d = device
    · subst hd
      change Function.update disk.pledge d bytes d ≤ u64Max
      rwa [Function.update_self]
    · exact (hpledge d hd).trans_le (h.pledge d)
  · intro d hd
    have hsame := hpledge d hd
    unfold Published
    dsimp only
    rw [hsame]
    exact h.files d
  · have hfound := owed_le_found hvisible h.toSound hdevice hlisted hfresh hapart
    have hothers : ∑ d ∈ site.nodes.erase device, (disk.pledge d - disk.held d) ≤ disk.free :=
      (Finset.sum_le_sum_of_subset (Finset.erase_subset _ _)).trans h.owed
    have hsum : (({ disk with pledge := Function.update disk.pledge device bytes } : Disk δ).publish
      site device
        now).owed site =
        (bytes - disk.held device) + ∑ d ∈ site.nodes.erase device, (disk.pledge d - disk.held d) := by
      rw [Disk.owed, ← Finset.add_sum_erase _ _ hdevice]
      refine congrArg₂ (· + ·) ?_ (Finset.sum_congr rfl fun d hd => ?_)
      · exact congrArg (· - disk.held device) (Function.update_self ..)
      · exact congrArg (· - disk.held d) (hpledge d (Finset.ne_of_mem_erase hd))
    rw [hsum]
    change _ ≤ disk.free
    rcases le_room haccepted with hzero | hroom
    · omega
    · omega

/-- Storing what was promised. -/
theorem Safe.store (h : Safe site disk) {bytes : ℕ}
    (hallowed : Allowed site disk (.store device bytes)) :
    Safe site (disk.step site (.store device bytes)) := by
  obtain ⟨hdevice, hbytes, hfree⟩ := hallowed
  have hheld : ∀ d, disk.held d ≤ Function.update disk.held device (disk.held device + bytes) d := by
    intro d
    by_cases hd : d = device
    · subst hd
      rw [Function.update_self]
      exact Nat.le_add_right _ _
    · rw [Function.update_of_ne hd]
  refine { held := fun d => ?_, pledge := h.pledge, files := fun d => ?_, owed := ?_ }
  · by_cases hd : d = device
    · subst hd
      have hpledge := h.pledge d
      have := h.held d
      change Function.update disk.held d (disk.held d + bytes) d ≤ u64Max
      rw [Function.update_self]
      omega
    · change Function.update disk.held device (disk.held device + bytes) d ≤ u64Max
      rw [Function.update_of_ne hd]
      exact h.held d
  · refine (h.files d).imp id ?_
    rintro ⟨held, stamp, hle, hrest⟩
    exact ⟨held, stamp, hle.trans (hheld d), hrest⟩
  · have hbefore := h.owed
    rw [Disk.owed, ← Finset.add_sum_erase _ _ hdevice] at hbefore
    have hothers : ∑ d ∈ site.nodes.erase device,
        (disk.pledge d - Function.update disk.held device (disk.held device + bytes) d) =
        ∑ d ∈ site.nodes.erase device, (disk.pledge d - disk.held d) :=
      Finset.sum_congr rfl fun d hd => by rw [Function.update_of_ne (Finset.ne_of_mem_erase hd)]
    rw [Disk.owed, ← Finset.add_sum_erase _ _ hdevice]
    simp only [Disk.step, Function.update_self]
    rw [hothers]
    omega

/-- **No act breaks it.** -/
theorem Safe.step (hvisible : site.Visible) (h : Safe site disk) {act : Act}
    (hallowed : Allowed site disk act)
    (hapart : Apart site disk act) : Safe site (disk.step site act) := by
  cases act with
  | set device bytes now homes dir =>
    rw [Disk.step]
    dsimp only
    split_ifs with haccepted
    · exact h.set hvisible hallowed hapart (diskRefusal_isNone.mp haccepted)
    · exact h
  | store device bytes => exact h.store hallowed
  | publish device now =>
    exact { toSound := sound_publish hallowed.2 h.held h.pledge (h.written device) fun d _ => h.files d
            owed := h.owed }

end

/-- **No disk is promised twice.** From a disk on which nobody has pledged, whatever the nodes do
one at a time: as long as no two of them owe alike when a third sets its pledge, what they all
still need is free. -/
theorem promised_once {δ : Type} [DecidableEq δ] (site : Site δ) (hvisible : site.Visible)
    (free : ℕ) (held : Str → ℕ) (hheld : ∀ d, held d ≤ u64Max) (disk : Disk δ)
    (h : Reached site (fun disk act => Allowed site disk act ∧ Apart site disk act)
      (Disk.fresh δ free held) disk) :
    disk.owed site ≤ disk.free := by
  have hsafe : Safe site disk := by
    induction h with
    | start => exact safe_fresh hheld
    | step _ hact ih => exact ih.step hvisible hact.1 hact.2
  exact hsafe.owed

/-! ### Three containers -/

/-- Nobody else's entry changes when a pledge is set. -/
theorem step_set_entry {δ : Type} [DecidableEq δ] (site : Site δ) (disk : Disk δ) {device d : Str}
    (hd : d ≠ device) (bytes now : ℕ) (homes dir : List Str) (s : δ) :
    (disk.step site (.set device bytes now homes dir)).entry s d = disk.entry s d := by
  rw [Disk.step]
  dsimp only
  split_ifs
  · exact if_neg fun h => hd h.2
  · rfl

/-- Three nodes that share a directory and see no home but their own. -/
def containers : Site Unit where
  nodes := {['a'], ['b'], ['c']}
  beside _ _ := false
  named := id
  shared _ := some ()

theorem containers_visible : containers.Visible := fun _ _ _ _ _ => Or.inr ⟨(), rfl, rfl⟩

/-- A disk with 60 GB free. -/
def emptyDisk : Disk Unit := Disk.fresh Unit 60000000000 fun _ => 0

/-- `b` pledges 30 GB of it, and `c` the other 30 GB in the same second. -/
def firstPledge : Act := .set ['b'] 30000000000 1790000000 [] []

def secondPledge (now : ℕ) : Act := .set ['c'] 30000000000 now [] [['b']]

/-- A minute later `a` finds the two entries. -/
def thirdPledge : Act := .set ['a'] 30000000000 1790000060 [] [['b'], ['c']]

theorem listed_containers {disk : Disk Unit} {dir : List Str}
    (h : ∀ d, d ∈ dir ↔ (disk.entry () d).isSome) : Listed containers disk device [] dir :=
  ⟨List.nodup_nil, fun _ => ⟨fun h => absurd h List.not_mem_nil, fun h => nomatch h.2.2⟩, h⟩

/-- Once a node has set its pledge its entry is there too. -/
theorem entries_step {disk : Disk Unit} {dir : List Str}
    (h : ∀ d, d ∈ dir ↔ (disk.entry () d).isSome) {homes seen : List Str}
    (hsome : ((disk.step containers (.set device bytes now homes seen)).entry () device).isSome)
    (d : Str) :
    d ∈ dir ++ [device] ↔
      ((disk.step containers (.set device bytes now homes seen)).entry () d).isSome := by
  by_cases hd : d = device
  · subst hd
    simpa using hsome
  · rw [step_set_entry containers disk hd, ← h d]
    simp [hd]

theorem entries_none (d : Str) : d ∈ [] ↔ (emptyDisk.entry () d).isSome := by
  simp [emptyDisk, Disk.fresh]

theorem entries_first (d : Str) :
    d ∈ [['b']] ↔ ((emptyDisk.step containers firstPledge).entry () d).isSome :=
  entries_step entries_none (by decide +kernel) d

theorem allowed_first : Allowed containers emptyDisk firstPledge :=
  ⟨by decide, by decide +kernel, by decide +kernel, listed_containers entries_none, by decide +kernel⟩

/-- The entries of `b` and `c` say the same, so `a` counts one of them: 90 GB are promised of 60. -/
theorem promised_twice : containers.Visible ∧ ∃ disk,
    Reached containers (Allowed containers) (Disk.fresh Unit 60000000000 fun _ => 0) disk ∧
      disk.free = 60000000000 ∧ disk.owed containers = 90000000000 := by
  have hsecond : Allowed containers (emptyDisk.step containers firstPledge)
      (secondPledge 1790000000) :=
    ⟨by decide, by decide +kernel, by decide +kernel,
      listed_containers entries_first, by decide +kernel⟩
  have hthird : Allowed containers ((emptyDisk.step containers firstPledge).step containers
      (secondPledge 1790000000)) thirdPledge :=
    ⟨by decide, by decide +kernel, by decide +kernel,
      listed_containers (entries_step entries_first (by decide +kernel)), by decide +kernel⟩
  refine ⟨containers_visible, _, .step (.step (.step .start allowed_first) hsecond) hthird, ?_, ?_⟩
  · decide +kernel
  · decide +kernel

/-- Had `c` pledged a second later, `a` would have been refused. -/
theorem promised_once_refused :
    let disk :=
      ((emptyDisk.step containers firstPledge).step containers (secondPledge 1790000001)).step
      containers thirdPledge
    disk.pledge ['a'] = 0 ∧ disk.owed containers ≤ disk.free := by
  refine ⟨by decide +kernel, ?_⟩
  have hsecond : Allowed containers (emptyDisk.step containers firstPledge)
      (secondPledge 1790000001) :=
    ⟨by decide, by decide +kernel, by decide +kernel,
      listed_containers entries_first, by decide +kernel⟩
  have hthird : Allowed containers ((emptyDisk.step containers firstPledge).step containers
      (secondPledge 1790000001)) thirdPledge :=
    ⟨by decide, by decide +kernel, by decide +kernel,
      listed_containers (entries_step entries_first (by decide +kernel)), by decide +kernel⟩
  refine promised_once containers containers_visible 60000000000 (fun _ => 0)
    (fun _ => Nat.zero_le _) _
    (.step (.step (.step .start ⟨allowed_first, ?_⟩) ⟨hsecond, ?_⟩) ⟨hthird, ?_⟩)
  · unfold Apart firstPledge
    decide +kernel
  · unfold Apart secondPledge
    decide +kernel
  · unfold Apart thirdPledge
    decide +kernel

end Itsanas.Pledges
