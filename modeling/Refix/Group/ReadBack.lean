import Refix.Group.RoundTrip

/-!
# Reading Groups Back at Every Depth

The scopes of a group's instances are groups' scopes themselves: reading a nested table on
the scope of an instance finds that instance's nested instances, and so on down the tree of
tables. The count tag of a nested table occurs just once in an instance, since tags are
distinct over all depths.
-/

namespace Refix.Message

open Refix.Foundation

variable {known : KnownTags} {table nested : OwnedGroupTable}

/-! ## The tags in an instance -/

/-- A field of an instance has a tag of the table, at some depth, or an unknown one. -/
theorem Entry.Fits.mem_memberTags {entry : Entry} (hfit : entry.Fits known table) :
    ∀ field ∈ entry.fields, field.1 ∈ table.memberTags ∨ Unknown known field := by
  induction hfit with
  | member hmember hplain =>
    intro field hfield
    rw [Entry.fields, List.mem_singleton] at hfield
    subst hfield
    exact Or.inl (OwnedGroupTable.mem_memberTags_of_mem hmember)
  | unknown hunknown =>
    intro field hfield
    rw [Entry.fields, List.mem_singleton] at hfield
    subst hfield
    exact Or.inr hunknown
  | @group table nested count leading instances hnested htag hcount hleading hdelimiter hnodup
      hentries ih =>
    intro field hfield
    rw [Entry.fields, List.mem_cons, List.mem_append, instancesFields_eq] at hfield
    rcases hfield with rfl | hfield | hfield
    · exact Or.inl (OwnedGroupTable.mem_memberTags_of_mem
        (htag ▸ OwnedGroupTable.countTag_mem hnested))
    · exact Or.inr (hleading field hfield)
    · obtain ⟨entry, hentry, hmem⟩ := mem_instanceFields hfield
      obtain ⟨entries, hentries', hentry'⟩ := List.mem_flatten.mp hentry
      exact (ih entries hentries' entry hentry' field hmem).imp_left
        (OwnedGroupTable.mem_memberTags_of_nested hnested)

/-- An entry of another tag holds no field of a direct member tag. -/
theorem Entry.Fits.tag_ne (hadmits : Admits known table) {entry : Entry}
    (hfit : entry.Fits known table) {tag : Tag} (htag : tag ∈ table.members)
    (hne : entry.tag ≠ tag) : ∀ field ∈ entry.fields, field.1 ≠ tag := by
  have hknown := hadmits.known _ (OwnedGroupTable.mem_memberTags_of_mem htag)
  cases hfit with
  | member hmember hplain =>
    intro field hfield
    rw [Entry.fields, List.mem_singleton] at hfield
    subst hfield
    exact hne
  | unknown hunknown =>
    intro field hfield
    rw [Entry.fields, List.mem_singleton] at hfield
    subst hfield
    exact hne
  | @group _ nested count leading instances hnested hcountTag hcount hleading hdelimiter hnodup
      hentries =>
    intro field hfield heq
    rw [Entry.fields, List.mem_cons, List.mem_append, instancesFields_eq] at hfield
    rcases hfield with rfl | hfield | hfield
    · exact hne heq
    · exact (hleading field hfield).1 (heq ▸ hknown)
    · obtain ⟨entry, hentry, hmem⟩ := mem_instanceFields hfield
      obtain ⟨entries, hentries', hentry'⟩ := List.mem_flatten.mp hentry
      rcases (hentries entries hentries' entry hentry').mem_memberTags field hmem with hin | hin
      · exact hadmits.distinct.notMem_of_mem_members hnested htag (heq ▸ hin)
      · exact hin.1 (heq ▸ hknown)

/-- The instances of a nested group fit the table its count tag names. -/
theorem Entry.Fits.of_group (hadmits : Admits known table) {count : Field} {leading : List Field}
    {instances : List (List Entry)}
    (hfit : (Entry.group count leading instances).Fits known table)
    (hnested : nested ∈ table.nested) (htag : nested.countTag = count.1) :
    Counts count.2 instances.length ∧ (∀ field ∈ leading, Unknown known field) ∧
      ∀ entries ∈ instances, InstanceFits known nested entries := by
  cases hfit with
  | @group _ other _ _ _ hother hotherTag hcount hleading hdelimiter hnodup hentries =>
    have hsame : other = nested := by
      have h₁ := hadmits.distinct.nestedCountedBy_eq hnested
      have h₂ := hadmits.distinct.nestedCountedBy_eq hother
      rw [hotherTag, ← htag, h₁] at h₂
      exact (Option.some.inj h₂).symm
    subst hsame
    exact ⟨hcount, hleading, fun entries hmem =>
      ⟨hdelimiter entries hmem, hnodup entries hmem, hentries entries hmem⟩⟩

/-! ## The scopes of the parts -/

theorem Scope.fits_of_mem_cover {scope s : Scope} {start : ℕ} {parts : List (List Field)}
    (hstop : scope.stop ≤ scope.message.fields.length)
    (hparts : start + parts.flatten.length ≤ scope.stop) (hs : s ∈ scope.cover start parts) :
    s.Fits ∧ s.message = scope.message := by
  induction parts generalizing start with
  | nil => exact absurd hs List.not_mem_nil
  | cons part rest ih =>
    rw [List.flatten_cons, List.length_append] at hparts
    rcases List.mem_cons.mp hs with rfl | hs
    · refine ⟨⟨Nat.le_add_right _ _, ?_⟩, rfl⟩
      change start + part.length ≤ scope.message.fields.length
      omega
    · exact ih (by omega) hs

/-- The scopes of consecutive parts cover these parts. -/
theorem Scope.map_fields_cover {scope : Scope} {start : ℕ} {parts : List (List Field)}
    {tail : List Field} (hparts : start + parts.flatten.length ≤ scope.stop)
    (hrest : scope.rest start = parts.flatten ++ tail) :
    (scope.cover start parts).map Scope.fields = parts := by
  induction parts generalizing start with
  | nil => rfl
  | cons part rest ih =>
    rw [List.flatten_cons, List.length_append] at hparts
    rw [List.flatten_cons, List.append_assoc] at hrest
    rw [cover, List.map_cons, fields_narrow (by omega) hrest,
      ih (by omega) (rest_append hrest)]

/-! ## Reading back -/

/-- The scope reads back as the instance, followed by the fields it absorbed: it covers
exactly these fields, a nested table whose count field is not in the instance is not there,
and any other is read as the nested instances, each of which reads back in the same way. -/
inductive ReadsBack (known : KnownTags) :
    OwnedGroupTable → Scope → List Entry → List Field → Prop
  | intro {table : OwnedGroupTable} {scope : Scope} {entries : List Entry}
      {absorbed : List Field}
      (covers : scope.fields = instanceFields entries ++ absorbed)
      (absent : ∀ nested ∈ table.nested, (∀ entry ∈ entries, entry.tag ≠ nested.countTag) →
        scope.getGroup nested known = .ok none)
      (present : ∀ nested ∈ table.nested, ∀ front count leading instances back,
        entries = front ++ .group count leading instances :: back →
        nested.countTag = count.1 →
        ∃ group, scope.getGroup nested known = .ok (some group) ∧
          group.instances.length = instances.length)
      (deep : ∀ nested ∈ table.nested, ∀ front count leading instances back,
        entries = front ++ .group count leading instances :: back →
        nested.countTag = count.1 →
        ∀ group : Group, scope.getGroup nested known = .ok (some group) →
        ∀ index inner nestedEntries, group.instances[index]? = some inner →
          instances[index]? = some nestedEntries →
          ReadsBack known nested inner nestedEntries
            (absorbedBy (unknownRun known (instanceFields back ++ absorbed)) instances.length
              index)) :
      ReadsBack known table scope entries absorbed

theorem unknown_of_mem_absorbedBy {fields : List Field} {total index : ℕ} {field : Field}
    (h : field ∈ absorbedBy (unknownRun known fields) total index) : Unknown known field := by
  rw [absorbedBy] at h
  split at h
  · exact unknown_of_mem_unknownRun h
  · exact absurd h List.not_mem_nil

/-- Fields of unknown tags end every group. -/
theorem EndsGroup.of_unknown {fields : List Field} (h : ∀ field ∈ fields, Unknown known field) :
    EndsGroup known table fields := by
  have hnone : fields.dropWhile (Unknown known ·) = [] :=
    List.dropWhile_eq_nil_iff.mpr fun field hfield => decide_eq_true (h field hfield)
  intro field hfield
  rw [hnone] at hfield
  exact absurd hfield (by simp)

/-- The nested instances of an entry read back wherever their fields stand. -/
def Entry.NestedReadBack (known : KnownTags) (table : OwnedGroupTable) (entry : Entry) : Prop :=
  ∀ ⦃count leading instances⦄, entry = .group count leading instances →
    ∀ nested ∈ table.nested, nested.countTag = count.1 → ∀ entries ∈ instances,
      ∀ ⦃scope : Scope⦄ ⦃absorbed : List Field⦄, scope.Fits →
        scope.message.fields.length ≤ u32Max → scope.fields = instanceFields entries ++ absorbed →
        (∀ field ∈ absorbed, Unknown known field) → ReadsBack known nested scope entries absorbed

section Read

variable {scope : Scope} {instances : List (List Entry)} {front leading tail : List Field}
  {count : Field}

/-- The scopes a group is read as hold the fields of its instances, the last one those it
absorbed as well. -/
theorem fields_of_getElem? (hfits : scope.Fits)
    (hfields : scope.fields = front ++ count :: (leading ++ (instancesFields instances ++ tail)))
    {index : ℕ} {inner : Scope} {entries : List Entry}
    (hinner : (scope.cover (scope.start + front.length + 1 + leading.length)
      (absorb (unknownRun known tail) (instances.map instanceFields)))[index]? = some inner)
    (hentries : instances[index]? = some entries) :
    inner.Fits ∧ inner.message = scope.message ∧
      inner.fields = instanceFields entries ++
        absorbedBy (unknownRun known tail) instances.length index := by
  have hrest : scope.rest (scope.start + front.length + 1 + leading.length) =
      instancesFields instances ++ tail := by
    obtain ⟨-, -, -, hfirst⟩ := Scope.of_rest_eq_cons (Scope.rest_append hfields)
    exact Scope.rest_append hfirst
  have hne : instances.map instanceFields ≠ [] := by
    rintro hnil
    rw [List.map_eq_nil_iff] at hnil
    rw [hnil] at hentries
    simp at hentries
  -- Joined, the parts are the instances and the fields the last one absorbed.
  have hflatten : (absorb (unknownRun known tail) (instances.map instanceFields)).flatten =
      instancesFields instances ++ unknownRun known tail := by
    rw [flatten_absorb hne, instancesFields_eq_flatten]
  have hparts : scope.rest (scope.start + front.length + 1 + leading.length) =
      (absorb (unknownRun known tail) (instances.map instanceFields)).flatten ++
        tail.dropWhile (Unknown known ·) := by
    rw [hflatten, List.append_assoc, unknownRun_append_dropWhile, hrest]
  have hstop : scope.start + front.length + 1 + leading.length +
      (absorb (unknownRun known tail) (instances.map instanceFields)).flatten.length ≤
        scope.stop := by
    have hall := Scope.slot_add_length_rest hfits hfits.start_le
    have hlen := congrArg List.length (hrest.symm.trans hparts)
    rw [← Scope.fields, hfields] at hall
    simp only [List.length_append, List.length_cons] at hall hlen
    omega
  obtain ⟨hinnerFits, hmessage⟩ := Scope.fits_of_mem_cover hfits.stop_le hstop
    (List.mem_of_getElem? hinner)
  refine ⟨hinnerFits, hmessage, ?_⟩
  -- The cover splits the rest into these parts, so `inner` holds the part at its index.
  have hmap := congrArg (fun parts => parts[index]?) (Scope.map_fields_cover hstop hparts)
  simp only [List.getElem?_map, hinner, getElem?_absorb, hentries, Option.map_some,
    List.length_map] at hmap
  exact Option.some.inj hmap

end Read

/-- A scope that covers an instance reads back as it, where the entries' nested instances do. -/
theorem readsBack_of_nested (hadmits : Admits known table) {scope : Scope} {entries : List Entry}
    {absorbed : List Field} (hinstance : InstanceFits known table entries) (hfits : scope.Fits)
    (hlen : scope.message.fields.length ≤ u32Max)
    (hfields : scope.fields = instanceFields entries ++ absorbed)
    (habsorbed : ∀ field ∈ absorbed, Unknown known field)
    (hnestedReads : ∀ entry ∈ entries, entry.NestedReadBack known table) :
    ReadsBack known table scope entries absorbed := by
  -- a nested group is read from its only count field on
  have hread : ∀ nested ∈ table.nested, ∀ front count leading instances back,
      entries = front ++ .group count leading instances :: back → nested.countTag = count.1 →
      scope.fields = instanceFields front ++ count :: (leading ++ (instancesFields instances ++
        (instanceFields back ++ absorbed))) ∧
      scope.getGroup nested known =
        .ok (some ⟨scope.cover (scope.start + (instanceFields front).length + 1 + leading.length)
          (absorb (unknownRun known (instanceFields back ++ absorbed))
            (instances.map instanceFields))⟩) := by
    intro nested hnested front count leading instances back hentries htag
    have hmember := OwnedGroupTable.countTag_mem hnested
    have hgroup := hinstance.entries (.group count leading instances) (by simp [hentries])
    obtain ⟨hcount, hleading, hinstances⟩ := hgroup.of_group hadmits hnested htag
    have hsplit : scope.fields = instanceFields front ++ count :: (leading ++
        (instancesFields instances ++ (instanceFields back ++ absorbed))) := by
      rw [hfields, hentries, instanceFields_append, instanceFields, Entry.fields]
      simp only [List.append_assoc, List.cons_append]
    have hfront : ∀ field ∈ instanceFields front, field.1 ≠ nested.countTag := by
      intro field hfield
      obtain ⟨entry, hentry, hmem⟩ := mem_instanceFields hfield
      refine (hinstance.entries entry (by simp [hentries, hentry])).tag_ne hadmits hmember ?_
        field hmem
      -- the direct member tags of an instance are distinct
      intro heq
      have hnodup := hinstance.nodup
      rw [hentries, directTags, List.map_append, List.filter_append] at hnodup
      refine List.disjoint_of_nodup_append hnodup (a := nested.countTag) ?_ ?_
      · exact List.mem_filter.mpr ⟨List.mem_map.mpr ⟨entry, hentry, heq⟩, by simpa using hmember⟩
      · exact List.mem_filter.mpr ⟨List.mem_map.mpr ⟨_, List.mem_cons_self, htag.symm⟩,
          by simpa using hmember⟩
    have hends : EndsGroup known nested (instanceFields back ++ absorbed) :=
      (EndsGroup.of_unknown habsorbed).instanceFields_append hadmits hnested fun entry hentry =>
        hinstance.entries entry (by simp [hentries, hentry])
    exact ⟨hsplit, getGroup_eq (hadmits.of_nested hnested) hinstances hfits hlen hsplit hfront
      htag.symm hcount hleading hends⟩
  constructor
  · exact hfields
  · intro nested hnested hnone
    have hfind : scope.find (Layout.countTag nested) scope.start = none := by
      refine Scope.find_eq_none hfits hfits.start_le fun field hfield => ?_
      rw [← Scope.fields, hfields, List.mem_append] at hfield
      have hmember := OwnedGroupTable.countTag_mem hnested
      rcases hfield with hfield | hfield
      · obtain ⟨entry, hentry, hmem⟩ := mem_instanceFields hfield
        exact (hinstance.entries entry hentry).tag_ne hadmits hmember (hnone entry hentry)
          field hmem
      · exact fun heq => (habsorbed field hfield).1
          (heq ▸ hadmits.known _ (OwnedGroupTable.mem_memberTags_of_mem hmember))
    rw [Scope.getGroup, Scope.walkGroup, hfind]
    rfl
  · intro nested hnested front count leading instances back hentries htag
    obtain ⟨-, hgroup⟩ := hread nested hnested front count leading instances back hentries htag
    exact ⟨_, hgroup, by simp⟩
  · intro nested hnested front count leading instances back hentries htag group hgroup index inner
      nestedEntries hinner hnestedEntries
    obtain ⟨hsplit, hread⟩ := hread nested hnested front count leading instances back hentries htag
    rw [hread] at hgroup
    cases hgroup
    obtain ⟨hinnerFits, hmessage, hinnerFields⟩ :=
      fields_of_getElem? hfits hsplit hinner hnestedEntries
    exact hnestedReads (.group count leading instances) (by simp [hentries]) rfl nested hnested htag
      nestedEntries (List.mem_of_getElem? hnestedEntries) hinnerFits (hmessage ▸ hlen)
      hinnerFields fun _ => unknown_of_mem_absorbedBy

/-- The nested instances of every entry that fits the table read back. -/
theorem Entry.Fits.nestedReadBack {entry : Entry} (hfit : entry.Fits known table)
    (hadmits : Admits known table) : entry.NestedReadBack known table := by
  induction hfit with
  | member => exact fun _ _ _ heq => by cases heq
  | unknown => exact fun _ _ _ heq => by cases heq
  | @group table nested count leading instances hnested htag hcount hleading hdelimiter hnodup
      hentries ih =>
    intro count' leading' instances' heq other hother hotherTag entries hmem scope absorbed hfits
      hlen hfields habsorbed
    cases heq
    have hgroup : (Entry.group count leading instances).Fits known table :=
      .group hnested htag hcount hleading hdelimiter hnodup hentries
    obtain ⟨-, -, hinstances⟩ := hgroup.of_group hadmits hother hotherTag
    have hsame : nested = other := by
      have h₁ := hadmits.distinct.nestedCountedBy_eq hnested
      have h₂ := hadmits.distinct.nestedCountedBy_eq hother
      rw [htag, ← hotherTag, h₂] at h₁
      exact (Option.some.inj h₁).symm
    subst hsame
    exact readsBack_of_nested (hadmits.of_nested hnested) (hinstances entries hmem) hfits hlen
      hfields habsorbed fun entry hentry =>
        ih entries hmem entry hentry (hadmits.of_nested hnested)

/-- A field that ends the group itself stands right behind it. -/
theorem unknownRun_eq_nil {fields : List Field} (h : ∀ field ∈ fields.head?,
    field.1 = checkSum ∨ field.1 ∈ known.tags ∧ field.1 ∉ table.memberTags) :
    unknownRun known fields = [] ∧ EndsGroup known table fields := by
  cases fields with
  | nil => exact ⟨rfl, fun field hfield => absurd hfield (by simp)⟩
  | cons field tail =>
    have hends := h field rfl
    have hknown : ¬ Unknown known field := fun hunknown =>
      hends.elim hunknown.2 fun hin => hunknown.1 hin.1
    refine ⟨List.takeWhile_cons_of_neg (by simpa using hknown), fun other hother => ?_⟩
    rw [List.dropWhile_cons_of_neg (by simpa using hknown)] at hother
    exact h other hother

/-- A group reads back: its instances are the ones written, in order and each covering exactly
its fields, and the nested tables find each instance's nested instances, at every depth. -/
theorem getGroup_readsBack {scope : Scope} {instances : List (List Entry)}
    (hadmits : Admits known table) (hfits : scope.Fits)
    (hlen : scope.message.fields.length ≤ u32Max)
    (hinstances : ∀ entries ∈ instances, InstanceFits known table entries)
    {front tail : List Field} {count : Field}
    (hfields : scope.fields = front ++ count :: (instancesFields instances ++ tail))
    (hfront : ∀ field ∈ front, field.1 ≠ table.countTag) (htag : count.1 = table.countTag)
    (hcount : Counts count.2 instances.length)
    (htail : ∀ field ∈ tail.head?,
      field.1 = checkSum ∨ field.1 ∈ known.tags ∧ field.1 ∉ table.memberTags) :
    ∃ group : Group, scope.getGroup table known = .ok (some group) ∧
      group.instances =
        scope.cover (scope.start + front.length + 1) (instances.map instanceFields) ∧
      ∀ (index : ℕ) (inner : Scope) (entries : List Entry),
        group.instances[index]? = some inner → instances[index]? = some entries →
        ReadsBack known table inner entries [] := by
  obtain ⟨hrun, hends⟩ := unknownRun_eq_nil htail
  have hsplit : scope.fields = front ++ count :: ([] ++ (instancesFields instances ++ tail)) :=
    hfields
  have hread := getGroup_eq hadmits hinstances hfits hlen hsplit hfront htag hcount
    (fun _ h => absurd h List.not_mem_nil) hends
  refine ⟨_, hread, by rw [hrun, absorb_nil_left]; rfl, ?_⟩
  intro index inner entries hinner hentries
  obtain ⟨hinnerFits, hmessage, hinnerFields⟩ :=
    fields_of_getElem? hfits hsplit hinner hentries
  have hnone : absorbedBy (unknownRun known tail) instances.length index = [] := by
    rw [hrun, absorbedBy, ite_self]
  rw [hnone] at hinnerFields
  have hinstance := hinstances entries (List.mem_of_getElem? hentries)
  exact readsBack_of_nested hadmits hinstance hinnerFits (hmessage ▸ hlen) hinnerFields
    (fun _ h => absurd h List.not_mem_nil)
    fun entry hentry => (hinstance.entries entry hentry).nestedReadBack hadmits

/-! ### Parties with sub-identifiers -/

def noPartySubIds : OwnedGroupTable where
  data := .mk 802 523 [523, 803] []
  checked := .mk (by decide) (by decide) (by simp) (by simp)

def noPartyIds : OwnedGroupTable where
  data := .mk 453 448 [447, 448, 452, 802] [.mk 802 523 [523, 803] []]
  checked := .mk (by decide) (by decide) (by decide) fun table htable =>
    List.mem_singleton.mp htable ▸ noPartySubIds.checked

def partyTags : KnownTags where
  tags := [11, 35, 54, 447, 448, 452, 453, 523, 802, 803]
  sorted := by decide

/-- Two parties, the first with a sub-identifier and a field of an unknown tag behind it. -/
def partiesMessage : RawMessage where
  bytes := ascii "35=D|453=2|448=AL|802=1|523=S1|5001=x|452=1|448=BOB|54=1|"
  fields := [⟨35, 3, 4⟩, ⟨453, 9, 10⟩, ⟨448, 15, 17⟩, ⟨802, 22, 23⟩, ⟨523, 28, 30⟩,
    ⟨5001, 36, 37⟩, ⟨452, 42, 43⟩, ⟨448, 48, 51⟩, ⟨54, 55, 56⟩]

def parties : List (List Entry) :=
  [[.field (448, ascii "AL"),
      .group (802, ascii "1") [] [[.field (523, ascii "S1"), .field (5001, ascii "x")]],
      .field (452, ascii "1")],
    [.field (448, ascii "BOB")]]

theorem admits_noPartyIds : Admits partyTags noPartyIds where
  distinct := ⟨by decide, by decide⟩
  known := by decide
  checkSum := by decide

theorem parties_fit : ∀ entries ∈ parties, InstanceFits partyTags noPartyIds entries := by
  have hnested : noPartyIds.nested = [noPartySubIds] := rfl
  have hsub : ∀ entry ∈ [Entry.field (523, ascii "S1"), .field (5001, ascii "x")],
      entry.Fits partyTags noPartySubIds := by
    simp only [List.mem_cons, List.not_mem_nil, or_false, forall_eq_or_imp, forall_eq]
    exact ⟨.member (by decide) (fun _ h => absurd h List.not_mem_nil), .unknown (by decide)⟩
  have hplain (tag : Tag) (h : tag ≠ 802) : ∀ nested ∈ noPartyIds.nested, nested.countTag ≠ tag := by
    rw [hnested]
    simpa [noPartySubIds, OwnedGroupTable.countTag, TableFields.countTag] using h.symm
  have hone : Counts (ascii "1") 1 := by
    exact ⟨ascii "1", Or.inl rfl, by decide +kernel, by decide +kernel, by decide +kernel⟩
  simp only [parties, List.mem_cons, List.not_mem_nil, or_false, forall_eq_or_imp, forall_eq]
  refine ⟨⟨rfl, by decide, ?_⟩, ⟨rfl, by decide, ?_⟩⟩
  · simp only [List.mem_cons, List.not_mem_nil, or_false, forall_eq_or_imp, forall_eq]
    refine ⟨.member (by decide) (hplain 448 (by decide)), ?_,
      .member (by decide) (hplain 452 (by decide))⟩
    exact .group (by rw [hnested]; exact List.mem_singleton_self _) rfl hone (by simp)
      (by simp; rfl) (by simp; decide) (by simpa using hsub)
  · simpa using Entry.Fits.member (by decide) (hplain 448 (by decide))

theorem getGroup_readsBack_parties :
    ∃ group : Group, partiesMessage.scope.getGroup noPartyIds partyTags = .ok (some group) ∧
      group.instances = partiesMessage.scope.cover 2 (parties.map instanceFields) ∧
      ∀ (index : ℕ) (inner : Scope) (entries : List Entry),
        group.instances[index]? = some inner → parties[index]? = some entries →
        ReadsBack partyTags noPartyIds inner entries [] := by
  have hfields : partiesMessage.scope.fields = [(35, ascii "D")] ++
      (453, ascii "2") :: (instancesFields parties ++ [(54, ascii "1")]) := by decide +kernel
  have hcount : Counts (ascii "2") 2 :=
    ⟨ascii "2", Or.inl rfl, by decide +kernel, by decide +kernel, by decide +kernel⟩
  exact getGroup_readsBack admits_noPartyIds ⟨by decide, by decide⟩ (by decide) parties_fit hfields
    (by decide) rfl hcount (by decide)

end Refix.Message
