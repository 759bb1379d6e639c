import Eudyptula.Fat.Sequence

/-! The volume as the blocks of a disk. The root directory is read off its blocks here, so that
a write through `sb_bread` can hit it. As long as `backup_boot` keeps away from the directory
and from the file allocation table, the disk refines the volume in which they are separate
stores. -/
namespace Eudyptula.Fat
open CMem Runs

namespace DirEntry

/-- The bytes behind the name, integers in little-endian order. -/
def fields (e : DirEntry) : List UInt8 :=
  [e.attr, e.lcase, e.ctimeCs] ++ leBytes 2 e.ctime.toNat ++ leBytes 2 e.cdate.toNat ++
    leBytes 2 e.adate.toNat ++ leBytes 2 e.starthi.toNat ++ leBytes 2 e.time.toNat ++
    leBytes 2 e.date.toNat ++ leBytes 2 e.start.toNat ++ leBytes 4 e.size.toNat

def bytes (e : DirEntry) : List UInt8 := e.name.toList ++ e.fields

def ofBytes (b : Bytes) : DirEntry where
  name := .ofFn fun k => b k
  attr := b 11
  lcase := b 12
  ctimeCs := b 13
  ctime := .ofNat (leNat [b 14, b 15])
  cdate := .ofNat (leNat [b 16, b 17])
  adate := .ofNat (leNat [b 18, b 19])
  starthi := .ofNat (leNat [b 20, b 21])
  time := .ofNat (leNat [b 22, b 23])
  date := .ofNat (leNat [b 24, b 25])
  start := .ofNat (leNat [b 26, b 27])
  size := .ofNat (leNat [b 28, b 29, b 30, b 31])

theorem length_bytes (e : DirEntry) : e.bytes.length = 32 := by
  simp [bytes, fields]

theorem ofBytes_congr {b b' : Bytes} (h : ∀ k < 32, b k = b' k) : ofBytes b = ofBytes b' := by
  have hname : (fun k : Fin 11 => b k) = fun k : Fin 11 => b' k :=
    funext fun k => h k (by omega)
  simp [ofBytes, h, hname]

/-- `memcpy` of a name over the first bytes of an entry. -/
theorem ofBytes_name (l : Label) (b : Bytes) :
    ofBytes (fun k => if k < 11 then l.toList.getD k 0 else b k) =
      { ofBytes b with name := l } := by
  have hname : (Vector.ofFn fun k : Fin 11 =>
      if (k : ℕ) < 11 then l.toList.getD k 0 else b k) = l := by
    apply Vector.ext
    intro k _
    simp
  exact congrArg (fun name => { ofBytes b with name := name }) hname

theorem ofNat_leNat_two (x : UInt16) : UInt16.ofNat (leNat (leBytes 2 x.toNat)) = x := by
  have hlt : x.toNat < 256 ^ 2 := x.toNat_lt
  rw [leNat_leBytes, Nat.mod_eq_of_lt hlt, UInt16.ofNat_toNat]

theorem ofNat_leNat_four (x : UInt32) : UInt32.ofNat (leNat (leBytes 4 x.toNat)) = x := by
  have hlt : x.toNat < 256 ^ 4 := x.toNat_lt
  rw [leNat_leBytes, Nat.mod_eq_of_lt hlt, UInt32.ofNat_toNat]

theorem ofBytes_fields (e : DirEntry) :
    { ofBytes (fun k => e.fields.getD (k - 11) 0) with name := e.name } = e := by
  have htwo := ofNat_leNat_two
  have hfour := ofNat_leNat_four e.size
  simp only [leBytes] at htwo hfour
  simp only [ofBytes, fields, leBytes, List.cons_append, List.nil_append, Nat.reduceSub,
    List.getD_cons_zero, List.getD_cons_succ, htwo, hfour]

/-- An entry that is written is read back. -/
theorem ofBytes_bytes (e : DirEntry) : ofBytes (fun k => e.bytes.getD k 0) = e := by
  have hsplit : ∀ k < 32, e.bytes.getD k 0 =
      if k < 11 then e.name.toList.getD k 0 else e.fields.getD (k - 11) 0 := by
    intro k _
    unfold bytes
    split_ifs with hk
    · exact List.getD_append _ _ _ _ (by simpa using hk)
    · rw [List.getD_append_right _ _ _ _ (by simpa using hk), Vector.length_toList]
  rw [ofBytes_congr hsplit, ofBytes_name, ofBytes_fields]

end DirEntry

/-- Where a mounted volume has its blocks. The clusters of the root directory are found in the
blocks of the file allocation table; neither lies in block 0, and a chain of clusters that
comes back to itself is refused when the volume is mounted. -/
structure Layout where
  perBlock : ℕ
  fat : List ℕ
  chain : (ℕ → Bytes) → List ℕ
  perBlock_pos : 0 < perBlock
  zero_notMem_fat : 0 ∉ fat
  zero_notMem_chain : ∀ block, 0 ∉ chain block
  nodup : ∀ block, (chain block).Nodup
  chain_notMem_fat : ∀ block, ∀ n ∈ chain block, n ∉ fat
  chain_congr : ∀ {block block'}, (∀ n ∈ fat, block' n = block n) → chain block' = chain block

structure Disk extends Mount where
  layout : Layout
  block : ℕ → Bytes

namespace Disk

/-- The blocks of the root directory. -/
def chain (d : Disk) : List ℕ := d.layout.chain d.block

/-- Entry `j` of block `n`. -/
def entry (d : Disk) (n j : ℕ) : DirEntry := .ofBytes fun k => d.block n (32 * j + k)

/-- The entries in the order in which `fat_get_entry` delivers them. -/
def root (d : Disk) : List DirEntry :=
  (List.range (d.chain.length * d.layout.perBlock)).map fun i =>
    d.entry (d.chain.getD (i / d.layout.perBlock) 0) (i % d.layout.perBlock)

/-- The volume in which the root directory is a store of its own. -/
def volume (d : Disk) : Volume := ⟨d.toMount, d.root, d.block⟩

/-- `memcpy` into block `n`. -/
def store (n off : ℕ) (src : List UInt8) (d : Disk) : Disk :=
  { d with block := Function.update d.block n (CMem.store (d.block n) off src) }

/-- `memcpy` into entry `i` of the root directory. -/
def storeEntry (i : ℕ) (src : List UInt8) (d : Disk) : Disk :=
  { d with block := match d.chain[i / d.layout.perBlock]? with
    | some n => (d.store n (32 * (i % d.layout.perBlock)) src).block
    | none => d.block }

def touchDir (t : Timespec) (d : Disk) : Disk :=
  { d with dirCtime := t, dirMtime := t, dirVersion := d.dirVersion + 1 }

def fatAddEntries (slots : DirAlloc) (de : DirEntry) (d : Disk) : ℤ × Disk :=
  match slots.pick d.root with
  | .ok i => (0, d.storeEntry i de.bytes)
  | .error err => (err, d)

def setDirLabel (c : Call) (l : Label) (found : Except ℤ SlotInfo) (d : Disk) : ℤ × Disk :=
  let (time, date) := d.unix2fat c.stack
  match found with
  | .ok i => (0, touchDir c.stack { d.storeEntry i.index l.toList with
      labelAtime := c.stack, labelMtime := c.stack })
  | .error _ =>
    let (err, d) := fatAddEntries c.slots (newEntry l time date) d
    if err ≠ 0 then (err, d) else (0, touchDir c.clock d)

def setBootLabel (c : Call) (l : Label) (d : Disk) : ℤ × Disk :=
  if d.rdonly || d.dirty then (-ENOTTY, d)
  else if !c.readBoot then (-ENOTTY, d)
  else if d.fatBits = 32 then
    let d := d.store 0 71 l.toList
    if c.readBackup then (0, d.store d.volume.backupBoot 71 l.toList) else (0, d)
  else (0, d.store 0 43 l.toList)

def fatIoctlSetVolumeLabel (c : Call) (d : Disk) : ℤ × Disk :=
  match c.arg with
  | none => (-EFAULT, d)
  | some l =>
    let (err, d) := setDirLabel c l (fatFindVolumeLabel d.root) d
    if err ≠ 0 then (err, d) else setBootLabel c l d

def setLabelStep (c : Call) (d : Disk) : Option Disk :=
  if (fatIoctlSetVolumeLabel c d).1 = 0 then some (fatIoctlSetVolumeLabel c d).2 else none

def entriesAdded : List Call → Disk → ℕ
  | [], _ => 0
  | c :: cs, d => addedIn d.root + entriesAdded cs (fatIoctlSetVolumeLabel c d).2

/-- What `mount` does not check: the block that the boot sector names as its backup belongs
neither to the file allocation table nor to the root directory. -/
def Apart (d : Disk) : Prop :=
  d.fatBits = 32 → d.volume.backupBoot ∉ d.layout.fat ∧ d.volume.backupBoot ∉ d.chain

/-- The copies of the label agree, and nothing else has changed: neither an entry of the root
directory nor, outside of its blocks, a byte. -/
structure LabelSet (c : Call) (d d' : Disk) (i : ℕ) (l : Label) : Prop where
  root : Labelled d.root d'.root i l
  boot : d'.volume.bootLabel = l.toList
  backup : d.fatBits = 32 → c.readBackup = true → d'.volume.backupLabel = l.toList
  bytes : ∀ n ∉ d.chain, ∀ k, ¬ d.volume.IsLabelByte n k → d'.block n k = d.block n k

section
variable {d : Disk} {n i : ℕ} {src : List UInt8}

theorem root_getElem? (d : Disk) (i : ℕ) :
    d.root[i]? = d.chain[i / d.layout.perBlock]?.map fun n =>
      d.entry n (i % d.layout.perBlock) := by
  have hlt : i < d.chain.length * d.layout.perBlock ↔ i / d.layout.perBlock < d.chain.length :=
    (Nat.div_lt_iff_lt_mul d.layout.perBlock_pos).symm
  unfold root
  rw [List.getElem?_map]
  by_cases hi : i / d.layout.perBlock < d.chain.length
  · rw [List.getElem?_range (hlt.mpr hi), List.getElem?_eq_getElem hi, Option.map_some,
      Option.map_some, List.getD_eq_getElem _ _ hi]
  · rw [List.getElem?_eq_none (by simpa using mt hlt.mp hi), List.getElem?_eq_none (by omega)]
    rfl

@[simp] theorem layout_store (off : ℕ) : (d.store n off src).layout = d.layout := rfl

@[simp] theorem layout_storeEntry : (d.storeEntry i src).layout = d.layout := rfl

theorem chain_store (off : ℕ) (hn : n ∉ d.layout.fat) : (d.store n off src).chain = d.chain := by
  apply d.layout.chain_congr
  intro m hm
  have hne : m ≠ n := fun h => hn (h ▸ hm)
  simp [store, hne]

theorem entry_store_of_ne {m j : ℕ} (off : ℕ) (h : m ≠ n) :
    (d.store n off src).entry m j = d.entry m j := by
  simp [entry, store, h]

theorem entry_store_of_ne_slot {j j' : ℕ} (hlen : src.length ≤ 32) (h : j' ≠ j) :
    (d.store n (32 * j) src).entry n j' = d.entry n j' := by
  apply DirEntry.ofBytes_congr
  intro k hk
  have hout : 32 * j' + k < 32 * j ∨ 32 * j + src.length ≤ 32 * j' + k := by omega
  simp [store, store_outside hout]

theorem entry_store_name {j : ℕ} (l : Label) :
    (d.store n (32 * j) l.toList).entry n j = { d.entry n j with name := l } := by
  unfold entry
  rw [← DirEntry.ofBytes_name]
  apply DirEntry.ofBytes_congr
  intro k _
  simp only [store, Function.update_self]
  split_ifs with hk
  · rw [store_inside (by omega) (by rw [Vector.length_toList]; omega), Nat.add_sub_cancel_left]
  · rw [store_outside (by rw [Vector.length_toList]; omega)]

theorem entry_store_bytes {j : ℕ} (e : DirEntry) :
    (d.store n (32 * j) e.bytes).entry n j = e := by
  refine (DirEntry.ofBytes_congr fun k hk => ?_).trans e.ofBytes_bytes
  have hlen := e.length_bytes
  simp only [store, Function.update_self]
  rw [store_inside (by omega) (by omega), Nat.add_sub_cancel_left]

theorem storeEntry_some (h : d.chain[i / d.layout.perBlock]? = some n) :
    d.storeEntry i src = d.store n (32 * (i % d.layout.perBlock)) src := by
  simp [storeEntry, store, h]

theorem storeEntry_none (h : d.chain[i / d.layout.perBlock]? = none) :
    d.storeEntry i src = d := by
  simp [storeEntry, h]

theorem notMem_fat_of_chain {k : ℕ} (h : d.chain[k]? = some n) : n ∉ d.layout.fat :=
  d.layout.chain_notMem_fat d.block n (List.mem_of_getElem? h)

theorem chain_storeEntry : (d.storeEntry i src).chain = d.chain := by
  cases hn : d.chain[i / d.layout.perBlock]? with
  | none => rw [storeEntry_none hn]
  | some n => rw [storeEntry_some hn, chain_store _ (notMem_fat_of_chain hn)]

theorem block_storeEntry (h : n ∉ d.chain) : (d.storeEntry i src).block n = d.block n := by
  cases hm : d.chain[i / d.layout.perBlock]? with
  | none => rw [storeEntry_none hm]
  | some m =>
    have hne : n ≠ m := fun heq => h (heq ▸ List.mem_of_getElem? hm)
    simp [storeEntry_some hm, store, hne]

/-- Two entries of the directory share no byte. -/
theorem entry_store_of_index_ne {m j : ℕ} (hlen : src.length ≤ 32) (hij : i ≠ j)
    (hn : d.chain[i / d.layout.perBlock]? = some n)
    (hm : d.chain[j / d.layout.perBlock]? = some m) :
    (d.store n (32 * (i % d.layout.perBlock)) src).entry m (j % d.layout.perBlock) =
      d.entry m (j % d.layout.perBlock) := by
  by_cases hmn : m = n
  · subst hmn
    have hblock : i / d.layout.perBlock = j / d.layout.perBlock := by
      have hi := (List.getElem?_eq_some_iff.mp hn).1
      exact (List.getElem?_inj hi (d.layout.nodup d.block)).mp (hn.trans hm.symm)
    have hslot : j % d.layout.perBlock ≠ i % d.layout.perBlock := by
      intro heq
      apply hij
      rw [← Nat.div_add_mod i d.layout.perBlock, ← Nat.div_add_mod j d.layout.perBlock, hblock, heq]
    exact entry_store_of_ne_slot hlen hslot
  · exact entry_store_of_ne _ hmn

theorem root_storeEntry {f : DirEntry → DirEntry} (hlen : src.length ≤ 32)
    (hf : ∀ n j, (d.store n (32 * j) src).entry n j = f (d.entry n j)) :
    (d.storeEntry i src).root = d.root.modify i f := by
  apply List.ext_getElem?
  intro j
  rw [root_getElem?, chain_storeEntry, layout_storeEntry, List.getElem?_modify, root_getElem?]
  cases hm : d.chain[j / d.layout.perBlock]? with
  | none => simp
  | some m =>
    by_cases hij : i = j
    · subst hij
      simp [storeEntry_some hm, hf]
    · cases hn : d.chain[i / d.layout.perBlock]? with
      | none => simp [storeEntry_none hn, hij]
      | some n => simp [storeEntry_some hn, hij, entry_store_of_index_ne hlen hij hn hm]

theorem root_store (off : ℕ) (hfat : n ∉ d.layout.fat) (hchain : n ∉ d.chain) :
    (d.store n off src).root = d.root := by
  apply List.ext_getElem?
  intro j
  rw [root_getElem?, chain_store off hfat, layout_store, root_getElem?]
  cases hm : d.chain[j / d.layout.perBlock]? with
  | none => rfl
  | some m =>
    have hne : m ≠ n := fun heq => hchain (heq ▸ List.mem_of_getElem? hm)
    simp [entry_store_of_ne off hne]

end

/-- `d`, reached from `d₀`, is a disk of the volume `v`. -/
structure Refines (d₀ d : Disk) (v : Volume) : Prop where
  layout : d.layout = d₀.layout
  chain : d.chain = d₀.chain
  mount : d.toMount = v.toMount
  root : d.root = v.root
  block : ∀ n ∉ d₀.chain, d.block n = v.sector n
  apart : v.fatBits = 32 → v.backupBoot ∉ d₀.layout.fat ∧ v.backupBoot ∉ d₀.chain

section
variable {d₀ d : Disk} {v : Volume}

theorem refines_volume (h : d.Apart) : Refines d d d.volume :=
  ⟨rfl, rfl, rfl, rfl, fun _ _ => rfl, h⟩

theorem Refines.block_zero (h : Refines d₀ d v) : d.block 0 = v.sector 0 :=
  h.block 0 (d₀.layout.zero_notMem_chain d₀.block)

theorem Refines.backupBoot (h : Refines d₀ d v) : d.volume.backupBoot = v.backupBoot := by
  unfold Volume.backupBoot
  rw [← h.block_zero]
  rfl

theorem Refines.storeEntry {i : ℕ} {src : List UInt8} {f : DirEntry → DirEntry} (m : Mount)
    (h : Refines d₀ d v) (hm : m.fatBits = v.fatBits) (hlen : src.length ≤ 32)
    (hf : ∀ n j, (d.store n (32 * j) src).entry n j = f (d.entry n j)) :
    Refines d₀ { d.storeEntry i src with toMount := m } ⟨m, v.root.modify i f, v.sector⟩ where
  layout := h.layout
  chain := chain_storeEntry.trans h.chain
  mount := rfl
  root := (root_storeEntry hlen hf).trans (by rw [h.root])
  block n hn := (block_storeEntry (h.chain ▸ hn)).trans (h.block n hn)
  apart := by
    rw [hm]
    exact h.apart

theorem Refines.store {n off : ℕ} {l : Label} (h : Refines d₀ d v) (hfat : n ∉ d₀.layout.fat)
    (hchain : n ∉ d₀.chain) (hrel : Volume.Relabelled v (v.storeLabel n off l)) :
    Refines d₀ (d.store n off l.toList) (v.storeLabel n off l) where
  layout := h.layout
  chain := (chain_store off (h.layout ▸ hfat)).trans h.chain
  mount := h.mount
  root := (root_store off (h.layout ▸ hfat) (h.chain ▸ hchain)).trans h.root
  block m hm := by
    by_cases hmn : m = n
    · subst hmn
      simp [Disk.store, Volume.storeLabel, h.block m hm]
    · simp [Disk.store, Volume.storeLabel, hmn, h.block m hm]
  apart h32 := by
    rw [hrel.fatBits] at h32
    rw [hrel.backupBoot h32]
    exact h.apart h32

/-- Both return the same, and leave a disk and a volume of which it is one. -/
def SameResult (d₀ : Disk) (r : ℤ × Disk) (r' : ℤ × Volume) : Prop :=
  r.1 = r'.1 ∧ Refines d₀ r.2 r'.2

theorem Refines.setDirLabel (h : Refines d₀ d v) (c : Call) (l : Label)
    (found : Except ℤ SlotInfo) :
    SameResult d₀ (d.setDirLabel c l found) (Fat.setDirLabel c l found v) := by
  obtain ⟨m, root, sector⟩ := v
  obtain rfl : d.toMount = m := h.mount
  obtain rfl : d.root = root := h.root
  cases found with
  | ok i =>
    have hlen : l.toList.length ≤ 32 := by simp
    exact ⟨rfl, h.storeEntry _ rfl hlen fun _ _ => entry_store_name l⟩
  | error e =>
    unfold Disk.setDirLabel Fat.setDirLabel Disk.fatAddEntries Fat.fatAddEntries
    cases hpick : c.slots.pick d.root with
    | ok i =>
      have hlen := (newEntry l (d.unix2fat c.stack).1 (d.unix2fat c.stack).2).length_bytes
      simp only [ne_eq, not_true_eq_false, if_false, List.set_eq_modify]
      exact ⟨rfl, h.storeEntry _ rfl (Nat.le_of_eq hlen) fun _ _ => entry_store_bytes _⟩
    | error err =>
      have hne := c.slots.failed hpick
      simp only [hne, ne_eq, not_false_eq_true, if_true]
      exact ⟨rfl, h⟩

theorem Refines.setBootLabel (h : Refines d₀ d v) (c : Call) (l : Label) :
    SameResult d₀ (d.setBootLabel c l) (Fat.setBootLabel c l v) := by
  unfold Disk.setBootLabel Fat.setBootLabel
  simp only [h.mount]
  have hzero : 0 ∉ d₀.layout.fat ∧ 0 ∉ d₀.chain :=
    ⟨d₀.layout.zero_notMem_fat, d₀.layout.zero_notMem_chain d₀.block⟩
  split_ifs with hro hboot h32 hbackup
  · exact ⟨rfl, h⟩
  · exact ⟨rfl, h⟩
  · have hoff : v.labelOff = 71 := by simp [Volume.labelOff, h32]
    obtain ⟨hrel, hlabel⟩ := Volume.storeBoot_spec l hoff
    have h' := h.store hzero.1 hzero.2 hrel
    have hrel' := (Volume.storeBackup_spec (hrel.fatBits.trans h32) hlabel).1
    obtain ⟨hfat, hchain⟩ := h'.apart (hrel.fatBits.trans h32)
    rw [h'.backupBoot]
    exact ⟨rfl, h'.store hfat hchain hrel'⟩
  · have hoff : v.labelOff = 71 := by simp [Volume.labelOff, h32]
    exact ⟨rfl, h.store hzero.1 hzero.2 (Volume.storeBoot_spec l hoff).1⟩
  · have hoff : v.labelOff = 43 := by simp [Volume.labelOff, h32]
    exact ⟨rfl, h.store hzero.1 hzero.2 (Volume.storeBoot_spec l hoff).1⟩

theorem Refines.fatIoctlSetVolumeLabel (h : Refines d₀ d v) (c : Call) :
    SameResult d₀ (d.fatIoctlSetVolumeLabel c) (Fat.fatIoctlSetVolumeLabel c v) := by
  unfold Disk.fatIoctlSetVolumeLabel Fat.fatIoctlSetVolumeLabel
  cases c.arg with
  | none => exact ⟨rfl, h⟩
  | some l =>
    obtain ⟨hret, h'⟩ := h.setDirLabel c l (fatFindVolumeLabel v.root)
    simp only [h.root, hret]
    split_ifs
    · exact ⟨rfl, h'⟩
    · exact h'.setBootLabel c l

theorem Refines.setLabelStep {d' : Disk} (h : Refines d₀ d v) (c : Call)
    (hstep : d.setLabelStep c = some d') :
    ∃ v', Fat.setLabelStep c v = some v' ∧ Refines d₀ d' v' := by
  obtain ⟨hret, h'⟩ := h.fatIoctlSetVolumeLabel c
  obtain ⟨hzero, hd'⟩ := Option.ite_none_right_eq_some.mp hstep
  obtain rfl := Option.some.inj hd'
  exact ⟨_, if_pos (hret ▸ hzero), h'⟩

theorem Refines.entriesAdded (h : Refines d₀ d v) (cs : List Call) :
    d.entriesAdded cs = Fat.entriesAdded cs v := by
  induction cs generalizing d v with
  | nil => rfl
  | cons c cs ih =>
    simp only [Disk.entriesAdded, Fat.entriesAdded, h.root, ih (h.fatIoctlSetVolumeLabel c).2]

theorem Refines.bootLabel (h : Refines d₀ d v) : d.volume.bootLabel = v.bootLabel := by
  have hoff : d.volume.labelOff = v.labelOff := by
    unfold Volume.labelOff
    rw [← h.mount]
    rfl
  unfold Volume.bootLabel
  rw [hoff, ← h.block_zero]
  rfl

theorem Refines.backupLabel (h : Refines d₀ d v) (h32 : v.fatBits = 32) :
    d.volume.backupLabel = v.backupLabel := by
  unfold Volume.backupLabel
  rw [h.backupBoot, ← h.block v.backupBoot (h.apart h32).2]
  rfl

theorem Refines.labelSet {d' : Disk} {v' : Volume} {c : Call} {i : ℕ} {l : Label}
    (h : Refines d d' v') (hset : Fat.LabelSet c d.volume v' i l) : LabelSet c d d' i l where
  root := h.root ▸ hset.root
  boot := h.bootLabel.trans hset.boot
  backup h32 hread :=
    (h.backupLabel (hset.relabelled.fatBits.trans h32)).trans (hset.backup h32 hread)
  bytes n hn k hk := by
    rw [h.block n hn]
    exact hset.relabelled.bytes n k hk

end

end Disk

/-- After calls that all return 0, the last of them with the label `l`: the entry that the
search finds, the boot sector and a readable backup hold `l`, nothing else has changed since
before the first call, and at most one entry has been added. -/
theorem set_volume_label_agrees {d d' : Disk} {cs : List Call} {c : Call} (hapart : d.Apart)
    (h : run Disk.setLabelStep (cs ++ [c]) d = some d') :
    (∃ l i, c.arg = some l ∧ d.LabelSet c d' i l) ∧ d.entriesAdded (cs ++ [c]) ≤ 1 := by
  have hstart := Disk.refines_volume hapart
  obtain ⟨v', hrun, hend⟩ :=
    run_simulation (fun c _ _ _ hu hstep => hu.setLabelStep c hstep) hstart h
  obtain ⟨⟨l, i, harg, hset⟩, hadded⟩ := labelSet_of_run hrun
  rw [hstart.entriesAdded]
  exact ⟨⟨l, i, harg, hend.labelSet hset⟩, hadded⟩

/-- Block 1 has the file allocation table and block 5 the root directory. -/
def Layout.sample : Layout where
  perBlock := 16
  fat := [1]
  chain _ := [5]
  perBlock_pos := by decide
  zero_notMem_fat := by decide
  zero_notMem_chain _ := by decide
  nodup _ := by decide
  chain_notMem_fat _ := by decide
  chain_congr _ := rfl

def DirEntry.sample (b : UInt8) : DirEntry := { newEntry (.replicate 11 b) 0 0 with attr := 0x20 }

/-- A FAT32 volume with three files, whose boot sector names block `backup` as its backup. -/
def Disk.sample (backup : UInt8) : Disk where
  toMount := .fresh 32 false
  layout := .sample
  block
    | 0, k => if k = 50 then backup else 0
    | 5, k => ([DirEntry.sample 97, .sample 98, .sample 99].flatMap DirEntry.bytes).getD k 0
    | _, _ => 0

theorem set_volume_label_agrees_twice :
    (Disk.sample 6).Apart ∧
      ∃ d', run Disk.setLabelStep ([.smooth (.replicate 11 65)] ++ [.smooth (.replicate 11 66)])
          (.sample 6) = some d' ∧
        (∃ l i, (Call.smooth (.replicate 11 66)).arg = some l ∧
          (Disk.sample 6).LabelSet (.smooth (.replicate 11 66)) d' i l) ∧
        (Disk.sample 6).entriesAdded
          ([.smooth (.replicate 11 65)] ++ [.smooth (.replicate 11 66)]) ≤ 1 := by
  have hapart : (Disk.sample 6).Apart := fun _ => by decide +kernel
  have hsome : (run Disk.setLabelStep
      ([.smooth (.replicate 11 65)] ++ [.smooth (.replicate 11 66)]) (.sample 6)).isSome := by
    decide +kernel
  obtain ⟨d', hd'⟩ := Option.isSome_iff_exists.mp hsome
  exact ⟨hapart, d', hd', set_volume_label_agrees hapart hd'⟩

/-- With the directory's own block for a backup, the call returns 0 and has written the label
over bytes 7 to 17 of the third file. -/
theorem set_volume_label_overwrites_file :
    ∃ d', run Disk.setLabelStep [.smooth (.replicate 11 66)] (.sample 5) = some d' ∧
      d'.root[2]? ≠ (Disk.sample 5).root[2]? ∧
      ¬ ∃ l i, (Call.smooth (.replicate 11 66)).arg = some l ∧
        (Disk.sample 5).LabelSet (.smooth (.replicate 11 66)) d' i l := by
  have hret : (Disk.fatIoctlSetVolumeLabel (.smooth (.replicate 11 66)) (.sample 5)).1 = 0 := by
    decide +kernel
  have hentry : (Disk.fatIoctlSetVolumeLabel (.smooth (.replicate 11 66)) (.sample 5)).2.root[2]? ≠
      (Disk.sample 5).root[2]? := by
    decide +kernel
  have hname : (Disk.fatIoctlSetVolumeLabel (.smooth (.replicate 11 66))
      (.sample 5)).2.root[2]?.map DirEntry.name ≠ some (.replicate 11 66) := by
    decide +kernel
  refine ⟨_, by simp only [run, Disk.setLabelStep, hret, if_true, Option.bind_some], hentry, ?_⟩
  rintro ⟨l, i, harg, hset⟩
  obtain rfl := Option.some.inj harg
  -- the file is neither the entry with the label nor as it was
  by_cases hi : i = 2
  · exact hname (hi ▸ hset.root.name)
  · exact hentry (hset.root.others 2 (Ne.symm hi))

end Eudyptula.Fat
