import Odyssey.Network.Cookies.CookieCleanUp

/-!
# The rows of the cookie table

A table mirrors some cookies if every cookie has its row and every row that has not expired has its
cookie. Deleting, inserting and updating rows keep the mirror under conditions; the update looks at
the name, the host and the path only, so it needs the strongest one.
-/

namespace Odyssey.Network.Cookies

open WTF Lib CookieMap

namespace CookieDatabase

open SyncedManager (fromDatabase)

/-! ## Cookies and rows -/

def primaryKey (c : ParsedCookie) : Text × Text × Text × Text :=
  (c.protocol, c.domain, c.path, c.name)

/-- A cookie without the times of its creation and its last access, and without the flag that the
table does not have. -/
def columns (c : ParsedCookie) : ParsedCookie :=
  { c with creationTime := 0, lastAccessed := 0, domainIsIPAddress := false }

variable {a b c old row : ParsedCookie} {cookies cookies' rows rows' : List ParsedCookie}
  {now : ℚ}

theorem samePrimaryKey_iff : samePrimaryKey a b = true ↔ primaryKey a = primaryKey b := by
  simp [samePrimaryKey, primaryKey, and_assoc]

theorem primaryKey_of_columns (h : columns a = columns b) : primaryKey a = primaryKey b := by
  have same := congrArg primaryKey h
  exact same

theorem hasExpired_of_columns (h : columns a = columns b) (currentTime : ℚ) :
    a.hasExpired currentTime = b.hasExpired currentTime := by
  have same := congrArg (ParsedCookie.hasExpired · currentTime) h
  exact same

theorem columns_fromDatabase (persistent : c.isSession = false)
    (unforced : c.isForceExpired = false) : columns (fromDatabase c) = columns c := by
  simp [columns, fromDatabase, persistent, unforced]

theorem mem_deleteRow : row ∈ deleteRow c rows ↔ row ∈ rows ∧ primaryKey c ≠ primaryKey row := by
  rw [deleteRow, List.mem_filter, Bool.not_eq_true', ← Bool.not_eq_true, samePrimaryKey_iff]

theorem isUpdated_of_primaryKey (h : primaryKey row = primaryKey c) : isUpdated c row = true := by
  simp only [primaryKey, Prod.mk.injEq] at h
  simp [isUpdated, h]

/-- The primary keys of a table differ, and a row stands for a persistent cookie. -/
structure IsTable (rows : List ParsedCookie) : Prop where
  isRow : ∀ row ∈ rows, fromDatabase row = row
  nodup : (rows.map primaryKey).Nodup

theorem IsTable.perm (table : IsTable rows) (h : rows.Perm rows') : IsTable rows' :=
  ⟨fun row mem => table.isRow row (h.mem_iff.mpr mem),
    (h.map primaryKey).nodup_iff.mp table.nodup⟩

theorem IsTable.deleteRow (table : IsTable rows) (c : ParsedCookie) :
    IsTable (deleteRow c rows) :=
  ⟨fun row mem => table.isRow row (mem_deleteRow.mp mem).1,
    table.nodup.sublist (List.filter_sublist.map _)⟩

theorem IsTable.insertRow (table : IsTable rows) (c : ParsedCookie) :
    IsTable (insertRow c rows) := by
  have others := table.deleteRow c
  constructor
  · intro row mem
    rcases List.mem_append.mp mem with mem | mem
    · exact others.isRow row mem
    · rw [List.mem_singleton.mp mem]
      rfl
  · rw [CookieDatabase.insertRow, List.map_append, List.nodup_append]
    refine ⟨others.nodup, by simp, ?_⟩
    intro key mem key' mem' eq
    obtain ⟨row, kept, same⟩ := List.mem_map.mp mem
    rw [List.map_singleton, List.mem_singleton] at mem'
    exact (mem_deleteRow.mp kept).2 (same.trans (eq.trans mem')).symm

/-- The update of a row that is the only one of its name, host and path deletes it and inserts the
new one. -/
theorem updateRows_perm (mem : row ∈ rows) (updated : isUpdated c row = true)
    (only : rows.countP (isUpdated c) ≤ 1) (same : primaryKey row = primaryKey old)
    (nodup : (rows.map primaryKey).Nodup) :
    (updateRows c rows).Perm (insertRow c (deleteRow old rows)) := by
  obtain ⟨first, last, rfl⟩ := List.append_of_mem mem
  have others : ∀ row' ∈ first ++ last, ¬ isUpdated c row' = true := by
    rw [List.countP_append, List.countP_cons_of_pos updated] at only
    rw [← List.countP_eq_zero, List.countP_append]
    omega
  have kept : ∀ row' ∈ first ++ last, primaryKey old ≠ primaryKey row' := by
    rw [List.map_append, List.map_cons, List.nodup_middle, ← List.map_append,
      List.nodup_cons] at nodup
    intro row' mem' eq
    exact nodup.1 (List.mem_map.mpr ⟨row', mem', by rw [same, eq]⟩)
  have deleted : deleteRow old (first ++ row :: last) = first ++ last := by
    have deletes : samePrimaryKey old row = true := samePrimaryKey_iff.mpr same.symm
    have keeps : ∀ row' ∈ first ++ last, (!samePrimaryKey old row') = true := by
      intro row' mem'
      rw [Bool.not_eq_true', ← Bool.not_eq_true, samePrimaryKey_iff]
      exact kept row' mem'
    obtain ⟨keeps_first, keeps_last⟩ := List.forall_mem_append.mp keeps
    rw [deleteRow, List.filter_append, List.filter_cons_of_neg (by rw [deletes]; decide),
      List.filter_eq_self.mpr keeps_first, List.filter_eq_self.mpr keeps_last]
  have inserted : insertRow c (first ++ last) = first ++ last ++ [fromDatabase c] := by
    rw [insertRow, List.filter_eq_self.mpr]
    intro row' mem'
    rw [Bool.not_eq_true', ← Bool.not_eq_true, samePrimaryKey_iff]
    exact fun eq => others row' mem' (isUpdated_of_primaryKey eq.symm)
  have unchanged {part : List ParsedCookie} (h : ∀ row' ∈ part, ¬ isUpdated c row' = true) :
      (part.map fun row' => if isUpdated c row' then fromDatabase c else row') = part := by
    conv_rhs => rw [← List.map_id part]
    exact List.map_congr_left fun row' mem' => if_neg (h row' mem')
  obtain ⟨others_first, others_last⟩ := List.forall_mem_append.mp others
  rw [deleted, inserted, updateRows, if_neg (by omega), List.map_append, List.map_cons,
    unchanged others_first, unchanged others_last, if_pos updated, List.append_assoc]
  exact (@List.perm_append_comm _ [fromDatabase c] _).append_left first

theorem IsTable.updateRows (table : IsTable rows) (c : ParsedCookie) :
    IsTable (updateRows c rows) := by
  by_cases only : rows.countP (isUpdated c) ≤ 1
  · by_cases none : ∀ row ∈ rows, ¬ isUpdated c row = true
    · have same : CookieDatabase.updateRows c rows = rows := by
        rw [CookieDatabase.updateRows, if_neg (by omega)]
        conv_rhs => rw [← List.map_id rows]
        exact List.map_congr_left fun row mem => if_neg (none row mem)
      rwa [same]
    · push Not at none
      obtain ⟨row, mem, updated⟩ := none
      have perm := updateRows_perm mem updated only rfl table.nodup
      exact ((table.deleteRow row).insertRow c).perm perm.symm
  · rwa [CookieDatabase.updateRows, if_pos (by omega)]

/-! ## The mirror -/

/-- Every cookie has its row, and every row that has not expired has its cookie. The primary keys
differ among the rows and among the cookies. -/
structure Mirror (cookies rows : List ParsedCookie) (now : ℚ) : Prop where
  isTable : IsTable rows
  nodup : (cookies.map primaryKey).Nodup
  saved : ∀ c ∈ cookies, ∃ row ∈ rows, columns row = columns c
  kept : ∀ row ∈ rows, row.hasExpired now = false → ∃ c ∈ cookies, columns c = columns row

namespace Mirror

theorem perm (mirror : Mirror cookies rows now) (h : cookies.Perm cookies') :
    Mirror cookies' rows now where
  isTable := mirror.isTable
  nodup := (h.map primaryKey).nodup_iff.mp mirror.nodup
  saved c mem := mirror.saved c (h.mem_iff.mpr mem)
  kept row mem live := by
    obtain ⟨c, mem, eq⟩ := mirror.kept row mem live
    exact ⟨c, h.mem_iff.mp mem, eq⟩

theorem perm_rows (mirror : Mirror cookies rows now) (h : rows.Perm rows') :
    Mirror cookies rows' now where
  isTable := mirror.isTable.perm h
  nodup := mirror.nodup
  saved c mem := by
    obtain ⟨row, mem, eq⟩ := mirror.saved c mem
    exact ⟨row, h.mem_iff.mp mem, eq⟩
  kept row mem := mirror.kept row (h.mem_iff.mpr mem)

/-- What has expired stays expired. -/
theorem later {later : ℚ} (mirror : Mirror cookies rows now) (le : now ≤ later) :
    Mirror cookies rows later where
  __ := mirror
  kept row mem live := by
    refine mirror.kept row mem ?_
    simp only [ParsedCookie.hasExpired, Bool.and_eq_false_iff, Bool.or_eq_false_iff,
      decide_eq_false_iff_not, not_lt] at live ⊢
    exact live.imp_right fun h => ⟨h.1, le.trans h.2⟩

/-- Only the columns of the cookies matter, and expired cookies may leave. -/
theorem of_columns (mirror : Mirror cookies rows now) (nodup : (cookies'.map primaryKey).Nodup)
    (known : ∀ c' ∈ cookies', ∃ c ∈ cookies, columns c = columns c')
    (stay : ∀ c ∈ cookies, c.hasExpired now = false → ∃ c' ∈ cookies', columns c' = columns c) :
    Mirror cookies' rows now where
  isTable := mirror.isTable
  nodup := nodup
  saved c' mem := by
    obtain ⟨c, mem, eq⟩ := known c' mem
    obtain ⟨row, mem, eq'⟩ := mirror.saved c mem
    exact ⟨row, mem, eq'.trans eq⟩
  kept row mem live := by
    obtain ⟨c, mem, eq⟩ := mirror.kept row mem live
    obtain ⟨c', mem, eq'⟩ := stay c mem (by rw [hasExpired_of_columns eq, live])
    exact ⟨c', mem, eq'.trans eq⟩

theorem delete (mirror : Mirror (old :: cookies) rows now) :
    Mirror cookies (deleteRow old rows) now := by
  obtain ⟨absent, nodup⟩ := List.nodup_cons.mp mirror.nodup
  refine ⟨mirror.isTable.deleteRow old, nodup, fun c mem => ?_, fun row mem live => ?_⟩
  · obtain ⟨row, mem', eq⟩ := mirror.saved c (List.mem_cons_of_mem _ mem)
    refine ⟨row, mem_deleteRow.mpr ⟨mem', fun same => absent ?_⟩, eq⟩
    rw [same, primaryKey_of_columns eq]
    exact List.mem_map_of_mem mem
  · obtain ⟨mem, other⟩ := mem_deleteRow.mp mem
    obtain ⟨c, mem, eq⟩ := mirror.kept row mem live
    rcases List.mem_cons.mp mem with rfl | mem
    · exact absurd (primaryKey_of_columns eq) other
    · exact ⟨c, mem, eq⟩

theorem insert (mirror : Mirror cookies rows now) (persistent : c.isSession = false)
    (unforced : c.isForceExpired = false)
    (absent : ∀ c' ∈ cookies, primaryKey c' ≠ primaryKey c) :
    Mirror (c :: cookies) (insertRow c rows) now := by
  have new := columns_fromDatabase persistent unforced
  refine ⟨mirror.isTable.insertRow c, ?_, fun c' mem => ?_, fun row mem live => ?_⟩
  · rw [List.map_cons, List.nodup_cons]
    refine ⟨fun mem => ?_, mirror.nodup⟩
    obtain ⟨c', mem, eq⟩ := List.mem_map.mp mem
    exact absent c' mem eq
  · rcases List.mem_cons.mp mem with rfl | mem
    · exact ⟨fromDatabase c', List.mem_append_right _ (List.mem_singleton_self _), new⟩
    · obtain ⟨row, mem', eq⟩ := mirror.saved c' mem
      refine ⟨row, List.mem_append_left _ (mem_deleteRow.mpr ⟨mem', fun same => ?_⟩), eq⟩
      exact absent c' mem ((primaryKey_of_columns eq).symm.trans same.symm)
  · rcases List.mem_append.mp mem with mem | mem
    · obtain ⟨c', mem', eq⟩ := mirror.kept row (mem_deleteRow.mp mem).1 live
      exact ⟨c', List.mem_cons_of_mem _ mem', eq⟩
    · rw [List.mem_singleton.mp mem]
      exact ⟨c, List.mem_cons_self, new.symm⟩

/-- The update of a cookie that keeps its columns, or whose host is written in the same way and
whose name, host and path have no other row. -/
theorem update (mirror : Mirror (old :: cookies) rows now) (persistent : c.isSession = false)
    (unforced : c.isForceExpired = false) (key : sameKey c old = true)
    (fits : columns old = columns c ∨
      old.domain = c.domain ∧ rows.countP (isUpdated c) ≤ 1) :
    Mirror (c :: cookies) (updateRows c rows) now := by
  have domain : old.domain = c.domain := by
    rcases fits with eq | fits
    · have same := congrArg ParsedCookie.domain eq
      exact same
    · exact fits.1
  by_cases only : rows.countP (isUpdated c) ≤ 1
  · obtain ⟨row, mem, eq⟩ := mirror.saved old List.mem_cons_self
    have same := primaryKey_of_columns eq
    have updated : isUpdated c row = true := by
      have := congrArg (isUpdated c) eq
      change isUpdated c row = isUpdated c old at this
      rw [this, isUpdated, domain]
      simpa [sameKey] using key
    have perm := updateRows_perm mem updated only same mirror.isTable.nodup
    refine (mirror.delete.insert persistent unforced fun c' mem' eq' => ?_).perm_rows perm.symm
    obtain ⟨row', mem'', eq''⟩ := mirror.delete.saved c' mem'
    obtain ⟨mem₁, other⟩ := mem_deleteRow.mp mem''
    have updated' := isUpdated_of_primaryKey ((primaryKey_of_columns eq'').trans eq')
    have both : [row, row'].Subperm rows := by
      refine List.subperm_of_subset ?_ (by simp [mem, mem₁])
      simp only [List.nodup_cons, List.mem_singleton]
      refine ⟨fun h => other ?_, by simp⟩
      rw [← h, same]
    have two := both.countP_le (isUpdated c)
    simp only [List.countP_cons, updated, updated', List.countP_nil, if_true] at two
    omega
  · have eq : columns old = columns c := fits.resolve_right fun h => only h.2
    rw [updateRows, if_pos (by omega)]
    refine mirror.of_columns ?_ (fun c' mem => ?_) (fun c' mem _ => ?_)
    · have := mirror.nodup
      rw [List.map_cons, primaryKey_of_columns eq] at this
      exact this
    · rcases List.mem_cons.mp mem with rfl | mem
      · exact ⟨old, List.mem_cons_self, eq⟩
      · exact ⟨c', List.mem_cons_of_mem _ mem, rfl⟩
    · rcases List.mem_cons.mp mem with rfl | mem
      · exact ⟨c, List.mem_cons_self, eq.symm⟩
      · exact ⟨c', List.mem_cons_of_mem _ mem, rfl⟩

/-- The rows that have not expired are the cookies that have not expired. -/
theorem columns_perm (mirror : Mirror cookies rows now) :
    ((rows.filter fun row => !row.hasExpired now).map columns).Perm
      ((cookies.filter fun c => !c.hasExpired now).map columns) := by
  have nodup {l : List ParsedCookie} (h : (l.map primaryKey).Nodup) :
      ((l.filter fun c => !c.hasExpired now).map columns).Nodup := by
    refine List.Nodup.of_map primaryKey ?_
    rw [List.map_map]
    exact h.sublist (List.filter_sublist.map _)
  rw [List.perm_ext_iff_of_nodup (nodup mirror.isTable.nodup) (nodup mirror.nodup)]
  intro k
  simp only [List.mem_map, List.mem_filter, Bool.not_eq_true']
  constructor
  · rintro ⟨row, ⟨mem, live⟩, rfl⟩
    obtain ⟨c, mem, eq⟩ := mirror.kept row mem live
    exact ⟨c, ⟨mem, by rw [hasExpired_of_columns eq, live]⟩, eq⟩
  · rintro ⟨c, ⟨mem, live⟩, rfl⟩
    obtain ⟨row, mem, eq⟩ := mirror.saved c mem
    exact ⟨row, ⟨mem, by rw [hasExpired_of_columns eq, live]⟩, eq⟩

end Mirror

end CookieDatabase

end Odyssey.Network.Cookies
