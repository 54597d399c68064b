-- SUMMARY: A bridge map is accepted exactly if it lists distinct VLANs with the names of their bridges.
import Softgre.Config.Load
import Mathlib.Data.List.Forall2
import Mathlib.Data.List.Nodup

/-!
# The bridge map

Read as it is written, `bridge-map` is a list of VLANs, each with the bridge its
tunnel interfaces are put into. What `parse_bridges` leaves in the configuration is
that list.
-/

namespace Softgre

-- ---------------------------------------------------------------------------
-- Grammar
-- ---------------------------------------------------------------------------

/-- What the name of an interface looks like. -/
structure IsIfname (name : CStr) : Prop where
  pos : 1 ≤ name.length
  le : name.length ≤ 15
  chars : ∀ c ∈ name, isAlnum c = true ∨ c = '_' ∨ c = '.' ∨ c = '-'
  ne_dot : name ≠ ['.']
  ne_dots : name ≠ ['.', '.']

/-- A field of the map: behind the VLAN and an `@` stands the bridge, and blanks are
    allowed around both. -/
def ReadsBridge (entry : Nat × CStr) (field : CStr) : Prop :=
  ∃ vlan name, strTrim field = vlan ++ '@' :: name ∧ '@' ∉ vlan ∧
    (IsDecimal (strTrim vlan) entry.1 ∧ 1 ≤ entry.1 ∧ entry.1 ≤ 4094) ∧
    (strTrim name = entry.2 ∧ IsIfname entry.2)

/-- One to ten fields, separated by commas, for distinct VLANs. -/
structure IsBridgeMap (map : CStr) (entries : List (Nat × CStr)) : Prop where
  pos : 1 ≤ (map.splitOn ',').length
  le : (map.splitOn ',').length ≤ 10
  reads : List.Forall₂ ReadsBridge entries (map.splitOn ',')
  distinct : (entries.map Prod.fst).Nodup

def TunnelBridge.entry (b : TunnelBridge) : Nat × CStr := (b.vlanId.toNat, b.ifname)

theorem configValidIfname_iff {name : CStr} : configValidIfname name = true ↔ IsIfname name := by
  have hchar : ∀ c, (isAlnum c || c == '_' || c == '-' || c == '.') = true ↔
      isAlnum c = true ∨ c = '_' ∨ c = '.' ∨ c = '-' := by
    intro c
    simp only [Bool.or_eq_true, beq_iff_eq, or_assoc, or_comm (a := c = '-')]
  simp only [configValidIfname, Bool.and_eq_true, Bool.not_eq_true', decide_eq_true_eq, bne_iff_ne,
    List.all_eq_true, hchar]
  constructor
  · rintro ⟨⟨⟨⟨hne, hlt⟩, hdot⟩, hdots⟩, hchars⟩
    exact ⟨List.length_pos_of_ne_nil (List.isEmpty_eq_false_iff.mp hne), Nat.le_of_lt_succ hlt, hchars,
      hdot, hdots⟩
  · intro h
    have hne : name ≠ [] := List.ne_nil_of_length_pos h.pos
    exact ⟨⟨⟨⟨List.isEmpty_eq_false_iff.mpr hne, Nat.lt_succ_of_le h.le⟩, h.ne_dot⟩, h.ne_dots⟩,
      h.chars⟩

/-- `strtoul` reads every number that fits. -/
theorem readsAll_iff {s : CStr} {n : Nat} (hn : n < 2 ^ 64) :
    (readsAll s = true ∧ (strtoul s).value = n) ↔ IsDecimal s n := by
  constructor
  · rintro ⟨hreads, rfl⟩
    exact readsAll_isDecimal hreads
  · rintro ⟨hne, hdigits, hvalue⟩
    cases s with
    | nil => exact absurd rfl hne
    | cons c s =>
      have hc := hdigits c List.mem_cons_self
      have hskip : (c :: s).dropWhile isSpace = c :: s :=
        List.dropWhile_cons_of_neg (by simp [not_isSpace_of_isDigit hc])
      have htake : (c :: s).takeWhile isDigit = c :: s := List.takeWhile_eq_self_iff.mpr hdigits
      have hrest : (c :: s).dropWhile isDigit = [] := List.dropWhile_eq_nil_iff.mpr hdigits
      have hstrtoul : strtoul (c :: s) = ⟨n, [], false⟩ := by
        simp only [strtoul, hskip, strtoulSign_of_isDigit hc, htake, hrest, hvalue, List.isEmpty_cons,
          Bool.false_eq_true, if_false, if_neg (Nat.not_le.mpr hn)]
      rw [readsAll, hstrtoul]
      exact ⟨by simp [hc], rfl⟩

-- ---------------------------------------------------------------------------
-- Parsing
-- ---------------------------------------------------------------------------

/-- A round of `parse_bridges` goes through if there is room, the field is an entry
    and its VLAN is new. -/
theorem parseBridgeField_iff {bridge bridge' : List TunnelBridge} {field : CStr} :
    parseBridgeField bridge field = some bridge' ↔ bridge.length < maxAttach ∧
      ∃ b : TunnelBridge, ReadsBridge b.entry field ∧ (∀ b' ∈ bridge, b'.vlanId ≠ b.vlanId) ∧
        bridge' = bridge ++ [b] := by
  constructor
  · intro h
    obtain ⟨vlan, name, hsplit, hroom, hreads, hname, id, hid, hlow, hhigh, hnew, rfl⟩ :=
      parseBridgeField_cases h
    refine ⟨hroom, _, ⟨vlan, name, ?_, ?_, ?_, rfl, ?_⟩, hnew, rfl⟩
    · exact (strchr_eq_some_iff.mp hsplit).1
    · exact (strchr_eq_some_iff.mp hsplit).2
    · rw [TunnelBridge.entry, hid]
      rw [hid] at hlow hhigh
      exact ⟨readsAll_isDecimal hreads, hlow, hhigh⟩
    · exact configValidIfname_iff.mp hname
  · rintro ⟨hroom, ⟨_, id⟩, ⟨vlan, name, hfield, hnot, ⟨hdecimal, hlow, hhigh⟩, rfl, hname⟩, hnew, rfl⟩
    have hbound : id.toNat < 2 ^ 64 := Nat.lt_trans id.toNat_lt (by decide)
    obtain ⟨hreads, hvalue⟩ := (readsAll_iff hbound).mpr hdecimal
    have hany : bridge.any (·.vlanId.toNat == id.toNat) = false := by
      refine List.any_eq_false.mpr fun b' hb' heq => hnew b' hb' ?_
      exact UInt16.toNat_inj.mp (beq_iff_eq.mp heq)
    have hname : IsIfname (strTrim name) := hname
    have hlength : (strTrim name).length < ifNamSiz := Nat.lt_succ_of_le hname.le
    have hvalue : (strtoul (strTrim vlan)).value = id.toNat := hvalue
    have hlow : ¬ id.toNat < 1 := Nat.not_lt.mpr hlow
    have hhigh : ¬ id.toNat > 4094 := Nat.not_lt.mpr hhigh
    simp only [parseBridgeField, strchr_eq_some_iff.mpr ⟨hfield, hnot⟩, hvalue, hany, hreads,
      configValidIfname_iff.mpr hname]
    rw [if_neg (Nat.not_le.mpr hroom), if_neg (by simp [hlow, hhigh]), if_neg Bool.false_ne_true,
      snprintf_of_length_lt hlength, UInt16.ofNat_toNat]

/-- The loop appends an entry for every field. -/
theorem foldlM_parseBridgeField_iff {fields : List CStr} {bridge bridge' : List TunnelBridge}
    (hle : bridge.length ≤ maxAttach) (hdistinct : (bridge.map TunnelBridge.vlanId).Nodup) :
    fields.foldlM parseBridgeField bridge = some bridge' ↔ ∃ new, bridge' = bridge ++ new ∧
      List.Forall₂ (fun b field => ReadsBridge b.entry field) new fields ∧
      bridge'.length ≤ maxAttach ∧ (bridge'.map TunnelBridge.vlanId).Nodup := by
  induction fields generalizing bridge with
  | nil =>
    constructor
    · intro h
      cases h
      exact ⟨[], (List.append_nil _).symm, .nil, hle, hdistinct⟩
    · rintro ⟨new, rfl, hreads, -⟩
      cases hreads
      rw [List.append_nil]
      rfl
  | cons field rest ih =>
    have hnodup : ∀ b : TunnelBridge, ((bridge ++ [b]).map TunnelBridge.vlanId).Nodup ↔
        ∀ b' ∈ bridge, b'.vlanId ≠ b.vlanId := by
      intro b
      rw [List.map_append, List.nodup_append]
      simp [hdistinct]
    rw [List.foldlM_cons]
    constructor
    · intro h
      obtain ⟨bridge₁, hfield, h⟩ := Option.bind_eq_some_iff.mp h
      obtain ⟨hroom, b, hb, hnew, rfl⟩ := parseBridgeField_iff.mp hfield
      obtain ⟨new, rfl, hreads, hrest⟩ := (ih (by rw [List.length_append]; exact hroom)
        ((hnodup b).mpr hnew)).mp h
      exact ⟨b :: new, List.append_assoc _ _ _, .cons hb hreads, hrest⟩
    · rintro ⟨_, rfl, hreads, hle', hdistinct'⟩
      cases hreads with
      | cons hb hreads =>
        next b new =>
        have hle₁ : (bridge ++ [b]).length ≤ maxAttach := by
          rw [List.append_cons, List.length_append] at hle'
          exact Nat.le_trans (Nat.le_add_right _ _) hle'
        have hdistinct₁ : ((bridge ++ [b]).map TunnelBridge.vlanId).Nodup := by
          rw [List.append_cons, List.map_append] at hdistinct'
          exact (List.nodup_append.mp hdistinct').1
        have hfield : parseBridgeField bridge field = some (bridge ++ [b]) := by
          refine parseBridgeField_iff.mpr ⟨?_, b, hb, (hnodup b).mp hdistinct₁, rfl⟩
          rwa [List.length_append] at hle₁
        rw [hfield]
        exact (ih hle₁ hdistinct₁).mpr ⟨new, List.append_cons _ _ _, hreads, hle', hdistinct'⟩

theorem parseBridges_iff {map : CStr} {bridge : List TunnelBridge} :
    parseBridges map = some bridge ↔ IsBridgeMap map (bridge.map TunnelBridge.entry) := by
  have hpos : 1 ≤ (map.splitOn ',').length := List.length_pos_of_ne_nil (List.splitOn_ne_nil ',' map)
  have hloop : (map.splitOn ',').foldlM parseBridgeField [] = some bridge ↔ _ :=
    foldlM_parseBridgeField_iff (Nat.zero_le _) List.nodup_nil
  have hids : (bridge.map TunnelBridge.entry).map Prod.fst =
      (bridge.map TunnelBridge.vlanId).map UInt16.toNat := by
    rw [List.map_map, List.map_map]
    rfl
  have hinj : Function.Injective UInt16.toNat := fun _ _ h => UInt16.toNat_inj.mp h
  constructor
  · intro h
    obtain ⟨bridge', hfold, h⟩ := Option.bind_eq_some_iff.mp h
    split at h
    swap
    · cases h
    cases h
    obtain ⟨new, rfl, hreads, hle, hdistinct⟩ := hloop.mp hfold
    refine ⟨hpos, ?_, List.forall₂_map_left_iff.mpr hreads, ?_⟩
    · rw [← hreads.length_eq]
      exact hle
    · rw [hids]
      exact List.Nodup.map hinj hdistinct
  · rintro ⟨-, hle, hreads, hdistinct⟩
    have hreads := List.forall₂_map_left_iff.mp hreads
    have hfold := hloop.mpr ⟨bridge, rfl, hreads, by rw [hreads.length_eq]; exact hle, ?_⟩
    · rw [parseBridges, hfold]
      exact if_pos (by rw [hreads.length_eq]; exact hpos)
    · rw [hids] at hdistinct
      exact List.Nodup.of_map _ hdistinct

/-- A bridge map is accepted if and only if it follows the grammar. Then the entries
    are those of the map, in order and in full, and no VLAN has two bridges. -/
theorem bridge_map_exact (map : CStr) :
    ((parseBridges map).isSome = true ↔ ∃ entries, IsBridgeMap map entries) ∧
    ∀ bridge, parseBridges map = some bridge →
      IsBridgeMap map (bridge.map TunnelBridge.entry) ∧
      ∀ b ∈ bridge, ∀ b' ∈ bridge, b.vlanId = b'.vlanId → b = b' := by
  refine ⟨⟨fun h => ?_, ?_⟩, fun bridge h => ⟨parseBridges_iff.mp h, ?_⟩⟩
  · obtain ⟨bridge, hbridge⟩ := Option.isSome_iff_exists.mp h
    exact ⟨_, parseBridges_iff.mp hbridge⟩
  · rintro ⟨entries, hmap⟩
    have hvlans : ∀ e ∈ entries, e.1 ≤ 4094 := by
      refine ((List.forall₂_and_left entries _).mp (hmap.reads.imp fun e field h => ⟨?_, h⟩)).1
      obtain ⟨_, _, _, _, ⟨_, _, hle⟩, _⟩ := h
      exact hle
    have hentries : (entries.map fun e => (⟨e.2, UInt16.ofNat e.1⟩ : TunnelBridge)).map
        TunnelBridge.entry = entries := by
      rw [List.map_map]
      refine (List.map_congr_left fun e he => ?_).trans (List.map_id entries)
      have hfits : (UInt16.ofNat e.1).toNat = e.1 :=
        UInt16.toNat_ofNat_of_lt' (Nat.lt_of_le_of_lt (hvlans e he) (by decide))
      exact Prod.ext hfits rfl
    rw [parseBridges_iff.mpr (hentries.symm ▸ hmap)]
    rfl
  · intro b hb b' hb' heq
    exact List.inj_on_of_nodup_map (parseBridges_ok h).1.distinct hb hb' heq

example : parseBridges " 10 @ br0 ,0020@lan.1".toList =
    some [⟨"br0".toList, 10⟩, ⟨"lan.1".toList, 20⟩] := by
  decide +kernel

example : parseBridges "10@br0,010@br1".toList = none := by decide +kernel

end Softgre
