import Refix.Group.Instance

/-!
# Reading Groups Back

The walker reads the instances of a group back as they were written. The fields of an entry
take the loop from the entry's slot to the slot behind it, which is proved by induction on
the entry: the walk of a nested group collects the nested instances and ends behind the
fields of unknown tags that follow them, and the outer loop passes over these as well.
-/

namespace Refix.Message

open Refix.Foundation

variable {scope : Scope} {known : KnownTags} {table : OwnedGroupTable} {slot : ℕ}
  {progress : Progress} {fields tail : List Field}

/-! ## Unknown tags and the end of a group -/

/-- Fields of unknown tags are passed over. -/
theorem walkFrom_unknowns (hadmits : Admits known table)
    (hfields : ∀ field ∈ fields, Unknown known field) (hrest : scope.rest slot = fields ++ tail) :
    walkFrom scope known table slot progress =
      walkFrom scope known table (slot + fields.length) progress := by
  induction fields generalizing slot with
  | nil => rfl
  | cons field rest ih =>
    have hfield := hfields field List.mem_cons_self
    obtain ⟨-, -, -, hnext⟩ := Scope.of_rest_eq_cons hrest
    rw [walkFrom_unknown hrest hfield.2 (hadmits.isMember_eq_false hfield) hfield.1,
      ih (fun other hother => hfields other (List.mem_cons_of_mem _ hother)) hnext,
      List.length_cons, Nat.add_assoc, Nat.add_comm 1]

theorem unknownRun_append_dropWhile (known : KnownTags) (fields : List Field) :
    unknownRun known fields ++ fields.dropWhile (Unknown known ·) = fields :=
  List.takeWhile_append_dropWhile

/-- A walk may start behind the fields of unknown tags. -/
theorem walkFrom_unknownRun (hadmits : Admits known table) :
    walkFrom scope known table slot progress =
      walkFrom scope known table (slot + (unknownRun known (scope.rest slot)).length) progress :=
  walkFrom_unknowns hadmits (fun _ => unknown_of_mem_unknownRun)
    (unknownRun_append_dropWhile known _).symm

/-- Where a group ends, the walk stops behind the fields of unknown tags. -/
theorem walkFrom_ends (hfits : scope.Fits) (hadmits : Admits known table)
    (hends : EndsGroup known table (scope.rest slot)) :
    walkFrom scope known table slot progress =
      (progress, slot + (unknownRun known (scope.rest slot)).length) := by
  have hbehind := Scope.rest_append (unknownRun_append_dropWhile known (scope.rest slot)).symm
  rw [walkFrom_unknownRun hadmits]
  cases hhead : (scope.rest slot).dropWhile (Unknown known ·) with
  | nil => exact walkFrom_of_le (Scope.le_of_rest_eq_nil hfits (hbehind.trans hhead))
  | cons field tail =>
    rcases hends field (by rw [hhead]; rfl) with hcheck | ⟨hknown, htable⟩
    · exact walkFrom_checkSum (hbehind.trans hhead) hcheck
    · refine walkFrom_known (hbehind.trans hhead) ?_ hknown
      rw [Bool.eq_false_iff, Ne, OwnedGroupTable.isMember_iff]
      exact fun hmem => htable (OwnedGroupTable.mem_memberTags_of_mem hmem)

/-! ## Entries -/

/-- The walker's variables behind an entry. -/
def Entry.enter (entry : Entry) (scope : Scope) (table : OwnedGroupTable) (slot : ℕ)
    (progress : Progress) : Progress :=
  if entry.tag ∈ table.members then progress.enter scope table slot entry.tag else progress

/-- The fields of the entry take the walk behind it, wherever they stand in a message. -/
def Entry.WalkedOver (known : KnownTags) (table : OwnedGroupTable) (entry : Entry) : Prop :=
  ∀ ⦃scope : Scope⦄ ⦃slot : ℕ⦄ ⦃tail : List Field⦄ (progress : Progress), scope.Fits →
    scope.rest slot = entry.fields ++ tail →
    (∀ nested ∈ table.nested, EndsGroup known nested tail) →
    walkFrom scope known table slot progress =
      walkFrom scope known table (slot + entry.fields.length)
        (entry.enter scope table slot progress)

/-- Further entries of an open instance leave it open and add their tags to those seen. -/
theorem walkFrom_entries {entries : List Entry} (progress : Progress)
    (hadmits : Admits known table)
    (hwalked : ∀ entry ∈ entries, entry.WalkedOver known table)
    (hentries : ∀ entry ∈ entries, entry.Fits known table)
    (hnodup : (progress.seen ++ directTags table entries).Nodup) {start : ℕ}
    (hopen : progress.instanceStart = some start) (hfits : scope.Fits)
    (hrest : scope.rest slot = instanceFields entries ++ tail)
    (htail : ∀ nested ∈ table.nested, EndsGroup known nested tail) :
    walkFrom scope known table slot progress =
      walkFrom scope known table (slot + (instanceFields entries).length)
        { progress with seen := progress.seen ++ directTags table entries } := by
  induction entries generalizing slot progress with
  | nil => simp [directTags, instanceFields]
  | cons entry rest ih =>
    have hrestFits := fun other hother => hentries other (List.mem_cons_of_mem _ hother)
    have hbehind (nested) (hnested : nested ∈ table.nested) :=
      (htail nested hnested).instanceFields_append hadmits hnested hrestFits
    rw [instanceFields, List.append_assoc] at hrest
    rw [hwalked entry List.mem_cons_self progress hfits hrest hbehind]
    -- A tag of the table, which was not seen yet, joins those seen; an unknown one does not.
    have henter : entry.enter scope table slot progress =
        { progress with seen := progress.seen ++ directTags table [entry] } := by
      by_cases hmember : entry.tag ∈ table.members
      · have hnew : entry.tag ∉ progress.seen := by
          have hmem : entry.tag ∈ directTags table (entry :: rest) := by
            simp [directTags, hmember]
          exact fun hseen => List.disjoint_of_nodup_append hnodup hseen hmem
        simp [Entry.enter, Progress.enter, directTags, hmember, hnew, hopen]
      · simp [Entry.enter, directTags, hmember]
    have hsplit : directTags table (entry :: rest) =
        directTags table [entry] ++ directTags table rest := by
      rw [directTags, directTags, directTags, ← List.filter_append, ← List.map_append,
        List.singleton_append]
    rw [hsplit, ← List.append_assoc] at hnodup
    rw [henter, ih { progress with seen := progress.seen ++ directTags table [entry] }
      (fun other hother => hwalked other (List.mem_cons_of_mem _ hother)) hrestFits hnodup hopen
      (Scope.rest_append hrest)]
    simp only [instanceFields, List.length_append, hsplit, List.append_assoc, Nat.add_assoc]

/-! ## Instances -/

/-- An instance closes the one before it and is left open. -/
theorem walkFrom_instance {entries : List Entry} (progress : Progress)
    (hadmits : Admits known table)
    (hwalked : ∀ entry ∈ entries, entry.WalkedOver known table)
    (hinstance : InstanceFits known table entries)
    (hstarts : progress.instanceStart = none ∨ table.delimiter ∈ progress.seen)
    (hfits : scope.Fits) (hrest : scope.rest slot = instanceFields entries ++ tail)
    (htail : ∀ nested ∈ table.nested, EndsGroup known nested tail) :
    ∃ seen, table.delimiter ∈ seen ∧
      walkFrom scope known table slot progress =
        walkFrom scope known table (slot + (instanceFields entries).length)
          ⟨progress.close scope slot, some slot, seen, progress.anomalies⟩ := by
  obtain ⟨hdelimiter, hnodup, hentries⟩ := hinstance
  cases entries with
  | nil => simp at hdelimiter
  | cons entry rest =>
    have htag : entry.tag = table.delimiter := by simpa using hdelimiter
    have hmember : entry.tag ∈ table.members := htag ▸ table.delimiter_mem
    have hrestFits := fun other hother => hentries other (List.mem_cons_of_mem _ hother)
    have hbehind (nested) (hnested : nested ∈ table.nested) :=
      (htail nested hnested).instanceFields_append hadmits hnested hrestFits
    rw [instanceFields, List.append_assoc] at hrest
    -- The delimiter opens the instance, whether none was open or it was seen in the one before.
    have henter : entry.enter scope table slot progress =
        ⟨progress.close scope slot, some slot, [table.delimiter], progress.anomalies⟩ := by
      have hnew : progress.instanceStart = none ∨ entry.tag ∈ progress.seen := htag ▸ hstarts
      have hdelim : entry.tag = Layout.delimiter table := htag
      rw [Entry.enter, if_pos hmember, Progress.enter, if_pos hnew, if_neg (not_not.mpr hdelim),
        htag]
    have htags : directTags table (entry :: rest) =
        table.delimiter :: directTags table rest := by
      simp [directTags, htag, table.delimiter_mem]
    refine ⟨table.delimiter :: directTags table rest, List.mem_cons_self, ?_⟩
    rw [hwalked entry List.mem_cons_self progress hfits hrest hbehind, henter,
      walkFrom_entries _ hadmits
        (fun other hother => hwalked other (List.mem_cons_of_mem _ hother)) hrestFits
        (by rw [htags] at hnodup; exact hnodup) rfl hfits (Scope.rest_append hrest) htail]
    simp only [instanceFields, List.length_append, Nat.add_assoc, List.singleton_append]

section Instances

variable {instances : List (List Entry)}

/-- What follows the first instance ends the groups nested in it. -/
theorem EndsGroup.instancesFields_append (hadmits : Admits known table)
    (hinstances : ∀ entries ∈ instances, InstanceFits known table entries)
    (hends : EndsGroup known table tail) (nested : OwnedGroupTable)
    (hnested : nested ∈ table.nested) :
    EndsGroup known nested (instancesFields instances ++ tail) := by
  rw [instancesFields_eq]
  apply (hends.of_nested hnested).instanceFields_append hadmits hnested
  intro entry hentry
  obtain ⟨entries, hentries, hmem⟩ := List.mem_flatten.mp hentry
  exact (hinstances entries hentries).entries entry hmem

/-- With an instance open, the walk closes it, collects the instances and ends behind the
fields of unknown tags, which the last instance absorbs. -/
theorem walkFrom_open (progress : Progress) (hadmits : Admits known table)
    (hwalked : ∀ entries ∈ instances, ∀ entry ∈ entries, entry.WalkedOver known table)
    (hinstances : ∀ entries ∈ instances, InstanceFits known table entries) (hfits : scope.Fits)
    {start : ℕ} {current : List Field} (hopen : progress.instanceStart = some start)
    (hslot : slot = start + current.length) (hseen : table.delimiter ∈ progress.seen)
    (hrest : scope.rest slot = instancesFields instances ++ tail)
    (hends : EndsGroup known table tail) {stop : ℕ}
    (hstop : stop = slot + (instancesFields instances).length + (unknownRun known tail).length) :
    ∃ final, walkFrom scope known table slot progress = (final, stop) ∧
      final.anomalies = progress.anomalies ∧
      final.close scope stop = progress.instances ++ scope.cover start
        (absorb (unknownRun known tail) (current :: instances.map instanceFields)) := by
  induction instances generalizing slot progress start current with
  | nil =>
    rw [instancesFields, List.nil_append] at hrest
    refine ⟨progress, ?_, rfl, ?_⟩
    · rw [walkFrom_ends hfits hadmits (hrest ▸ hends), hrest, hstop]
      rfl
    · subst hslot
      simp [Progress.close, hopen, absorb, Scope.cover, hstop, instancesFields, Nat.add_assoc]
  -- The first of the instances closes the open one and is itself open for the others.
  | cons entries rest ih =>
    have hinstancesRest := fun other hother => hinstances other (List.mem_cons_of_mem _ hother)
    rw [instancesFields, List.append_assoc] at hrest
    obtain ⟨seen, hseen', hwalk⟩ := walkFrom_instance progress hadmits
      (hwalked entries List.mem_cons_self) (hinstances entries List.mem_cons_self) (Or.inr hseen)
      hfits hrest (hends.instancesFields_append hadmits hinstancesRest)
    obtain ⟨final, hfinal, hanomalies, hclose⟩ := ih
      ⟨progress.close scope slot, some slot, seen, progress.anomalies⟩
      (fun other hother => hwalked other (List.mem_cons_of_mem _ hother)) hinstancesRest rfl rfl
      hseen' (Scope.rest_append hrest)
      (by rw [hstop, instancesFields, List.length_append]; omega)
    refine ⟨final, hwalk.trans hfinal, hanomalies, ?_⟩
    subst hslot
    rw [hclose, List.map_cons, absorb, Scope.cover]
    simp [Progress.close, hopen]

/-- From the slot of the first instance on, the walk collects the instances and ends behind
the fields of unknown tags, which the last instance absorbs. -/
theorem walkFrom_instances (hadmits : Admits known table)
    (hwalked : ∀ entries ∈ instances, ∀ entry ∈ entries, entry.WalkedOver known table)
    (hinstances : ∀ entries ∈ instances, InstanceFits known table entries) (hfits : scope.Fits)
    (hrest : scope.rest slot = instancesFields instances ++ tail)
    (hends : EndsGroup known table tail) {stop : ℕ}
    (hstop : stop = slot + (instancesFields instances).length + (unknownRun known tail).length)
    (anomalies : List Anomaly) :
    ∃ final, walkFrom scope known table slot (.init anomalies) = (final, stop) ∧
      final.anomalies = anomalies ∧
      final.close scope stop = scope.cover slot
        (absorb (unknownRun known tail) (instances.map instanceFields)) := by
  cases instances with
  | nil =>
    rw [instancesFields, List.nil_append] at hrest
    refine ⟨.init anomalies, ?_, rfl, rfl⟩
    rw [walkFrom_ends hfits hadmits (hrest ▸ hends), hrest, hstop]
    rfl
  | cons entries rest =>
    have hinstancesRest := fun other hother => hinstances other (List.mem_cons_of_mem _ hother)
    rw [instancesFields, List.append_assoc] at hrest
    -- The first instance opens the group; `walkFrom_open` takes the others from there.
    obtain ⟨seen, hseen, hwalk⟩ := walkFrom_instance (.init anomalies) hadmits
      (hwalked entries List.mem_cons_self) (hinstances entries List.mem_cons_self) (Or.inl rfl)
      hfits hrest (hends.instancesFields_append hadmits hinstancesRest)
    have hstop' : stop = slot + (instanceFields entries).length + (instancesFields rest).length +
        (unknownRun known tail).length := by
      rw [hstop, instancesFields, List.length_append]
      omega
    obtain ⟨final, hfinal, hanomalies, hclose⟩ := walkFrom_open
      ⟨[], some slot, seen, anomalies⟩ hadmits
      (fun other hother => hwalked other (List.mem_cons_of_mem _ hother)) hinstancesRest hfits rfl
      rfl hseen (Scope.rest_append hrest) hends hstop'
    exact ⟨final, hwalk.trans hfinal, hanomalies, hclose⟩

end Instances

/-- Every entry that fits the table is walked over. -/
theorem Entry.Fits.walkedOver {entry : Entry} (hfit : entry.Fits known table)
    (hadmits : Admits known table) : entry.WalkedOver known table := by
  induction hfit with
  | @member table own hmember hplain =>
    intro scope slot tail progress hfits hrest htail
    rw [Entry.fields] at hrest ⊢
    have hnested := OwnedGroupTable.nestedCountedBy_eq_none.mpr hplain
    rw [walkFrom_member hrest (hadmits.ne_checkSum hmember)
      (OwnedGroupTable.isMember_iff.mpr hmember) hnested]
    exact congrArg _ (if_pos hmember).symm
  | @unknown table own hunknown =>
    intro scope slot tail progress hfits hrest htail
    rw [Entry.fields] at hrest ⊢
    have hmember : own.1 ∉ table.members := fun hmem =>
      hunknown.1 (hadmits.known _ (OwnedGroupTable.mem_memberTags_of_mem hmem))
    rw [walkFrom_unknown hrest hunknown.2 (hadmits.isMember_eq_false hunknown) hunknown.1]
    exact congrArg _ (if_neg hmember).symm
  | @group table nested count leading instances hnested htag hcount hleading hdelimiter hnodup
      hentries ih =>
    intro scope slot tail progress hfits hrest htail
    have hmember : count.1 ∈ table.members := htag ▸ OwnedGroupTable.countTag_mem hnested
    have hfound : Layout.nestedCountedBy table count.1 = some nested :=
      htag ▸ hadmits.distinct.nestedCountedBy_eq hnested
    have hadmits' := hadmits.of_nested hnested
    have hends := htail nested hnested
    have hbehind := Scope.rest_append hrest
    rw [Entry.fields, List.cons_append, List.append_assoc] at hrest
    obtain ⟨-, -, -, hfirst⟩ := Scope.of_rest_eq_cons hrest
    -- the nested walk ends behind the fields of unknown tags that follow its instances
    have hwalk : (walkFrom scope known nested (slot + 1) (.start scope slot)).2 =
        slot + (Entry.group count leading instances).fields.length +
          (unknownRun known tail).length := by
      obtain ⟨final, hfinal, -, -⟩ := walkFrom_instances hadmits'
        (fun entries hmem entry hentry => ih entries hmem entry hentry hadmits')
        (fun entries hmem =>
          ⟨hdelimiter entries hmem, hnodup entries hmem, hentries entries hmem⟩)
        hfits (Scope.rest_append hfirst) hends rfl
        (if parseCount (scope.valueAt slot) = none then [.invalidCount] else [])
      rw [walkFrom_unknowns hadmits' hleading hfirst, Progress.start, hfinal]
      simp only [Entry.fields, List.length_cons, List.length_append]
      omega
    -- and the outer walk passes over the same fields
    have hpass (progress : Progress) :
        walkFrom scope known table (slot + (Entry.group count leading instances).fields.length)
            progress =
          walkFrom scope known table (slot + (Entry.group count leading instances).fields.length +
            (unknownRun known tail).length) progress := by
      rw [walkFrom_unknownRun hadmits, hbehind]
    rw [walkFrom_nested hrest (hadmits.ne_checkSum hmember)
      (OwnedGroupTable.isMember_iff.mpr hmember) hfound, hwalk, hpass, Entry.enter,
      if_pos (show Entry.tag (.group count leading instances) ∈ table.members from hmember)]
    rfl

/-! ## Reading one group -/

theorem length_le_length_instancesFields {instances : List (List Entry)}
    (hinstances : ∀ entries ∈ instances, InstanceFits known table entries) :
    instances.length ≤ (instancesFields instances).length := by
  induction instances with
  | nil => exact le_rfl
  | cons entries rest ih =>
    have hrest := ih fun other hother => hinstances other (List.mem_cons_of_mem _ hother)
    have hdelimiter := (hinstances entries List.mem_cons_self).delimiter
    cases entries with
    | nil => simp at hdelimiter
    | cons entry entries =>
      obtain ⟨field, tail, hfields, -⟩ := entry.fields_eq_cons
      simp only [instancesFields, instanceFields, hfields, List.length_append, List.length_cons]
      omega

/-- A group whose count is its number of instances is read as these. The last one absorbs the
fields of unknown tags that follow. -/
theorem getGroup_eq {instances : List (List Entry)} (hadmits : Admits known table)
    (hinstances : ∀ entries ∈ instances, InstanceFits known table entries) (hfits : scope.Fits)
    (hlen : scope.message.fields.length ≤ u32Max) {front leading : List Field} {count : Field}
    (hfields : scope.fields =
      front ++ count :: (leading ++ (instancesFields instances ++ tail)))
    (hfront : ∀ field ∈ front, field.1 ≠ table.countTag) (htag : count.1 = table.countTag)
    (hcount : Counts count.2 instances.length) (hleading : ∀ field ∈ leading, Unknown known field)
    (hends : EndsGroup known table tail) :
    scope.getGroup table known =
      .ok (some ⟨scope.cover (scope.start + front.length + 1 + leading.length)
        (absorb (unknownRun known tail) (instances.map instanceFields))⟩) := by
  -- The count field is the first of its tag, so it is the one that is found.
  have hfind : scope.find (Layout.countTag table) scope.start =
      some (scope.start + front.length, count.2) := by
    have h := Scope.find_eq_some hfits hfits.start_le hfields (by rw [htag]; exact hfront)
    rw [htag] at h
    exact h
  have hslot := Scope.rest_append hfields
  obtain ⟨-, -, hvalue, hfirst⟩ := Scope.of_rest_eq_cons hslot
  have hbound : instances.length ≤ usizeMax := by
    have hinst := length_le_length_instancesFields hinstances
    have hall := Scope.slot_add_length_rest hfits hfits.start_le
    have hstop := hfits.stop_le
    have hmax : u32Max ≤ usizeMax := by decide
    rw [← Scope.fields, hfields] at hall
    simp only [List.length_append, List.length_cons] at hall
    omega
  have hparse : parseCount (scope.valueAt (scope.start + front.length)) = some instances.length := by
    rw [hvalue]
    exact hcount.parseCount_eq hbound
  -- The walk skips the leading unknown fields, takes each instance, and stops at `tail`.
  obtain ⟨final, hfinal, hanomalies, hclose⟩ := walkFrom_instances hadmits
    (fun entries hmem entry hentry => ((hinstances entries hmem).entries entry hentry).walkedOver
      hadmits) hinstances hfits (Scope.rest_append hfirst) hends rfl []
  have hwalk : (walk scope (scope.start + front.length) table known).1 =
      ⟨some instances.length, scope.cover (scope.start + front.length + 1 + leading.length)
        (absorb (unknownRun known tail) (instances.map instanceFields)), []⟩ := by
    rw [walk_eq, Progress.start, hparse, if_neg (Option.some_ne_none _),
      walkFrom_unknowns hadmits hleading hfirst, hfinal, Walk.of]
    simp only [hclose, hanomalies, Scope.length_cover, length_absorb, List.length_map, ne_eq,
      not_true_eq_false, if_false]
  rw [Scope.getGroup, Scope.walkGroup, hfind, Option.map_some, hwalk]
  rfl

end Refix.Message
