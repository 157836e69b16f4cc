import Pintos.Lib.Bytes
import Mathlib.Tactic.Common

/-!
# Partitions (`devices/partition.c`)

Scanning a block device leaves a trace: the sectors read, the partitions found, the block
devices registered and the messages. `malloc` has memory for tables and descriptors.
-/

open bytes

namespace pintos.devices

/-- A block device: its name, its size in sectors, and the bytes of its sectors. -/
structure block where
  name : String
  size : Nat
  size_lt : size < 2 ^ 32
  sector : Nat → Nat → BitVec 8

/-- A `struct partition_table_entry`: the members that are used. -/
structure partition_table_entry where
  type : Nat
  offset : Nat
  size : Nat
  deriving DecidableEq, Repr

/-- A `struct partition_table`. -/
structure partition_table where
  partitions : List partition_table_entry
  signature : Nat
  deriving DecidableEq, Repr

/-- The partition table in the bytes of a sector. -/
def partition_table.of_bytes (pt : Nat → BitVec 8) : partition_table where
  partitions := (List.range 4).map fun i =>
    { type := (pt (446 + 16 * i + 4)).toNat
      offset := word pt (446 + 16 * i + 8)
      size := word pt (446 + 16 * i + 12) }
  signature := (pt 510).toNat + 256 * (pt 511).toNat

/-- `enum block_type`. -/
inductive block_type where
  | BLOCK_KERNEL
  | BLOCK_FILESYS
  | BLOCK_SCRATCH
  | BLOCK_SWAP
  | BLOCK_FOREIGN
  deriving DecidableEq, Repr

/-- A partition that `read_partition_table` finds: the place of its entry, and the
arguments of `found_partition`. -/
structure Found where
  table : Nat
  index : Nat
  type : Nat
  start : Nat
  size : Nat
  part_nr : Nat
  deriving DecidableEq, Repr

/-- A block device that is registered for a partition. -/
structure Registered where
  name : String
  type : block_type
  extra_info : String
  size : Nat
  start : Nat
  deriving DecidableEq, Repr

/-- What happens in a scan. -/
inductive Event where
  | read (table sector : Nat)
  | found (partition : Found)
  | register (partition : Registered)
  | message (text : String)
  deriving DecidableEq, Repr

/-- The names in `partition_type_name`. -/
def type_names : List (Nat × String) :=
  [(0x00, "Empty"), (0x01, "FAT12"), (0x02, "XENIX root"), (0x03, "XENIX usr"), (0x04, "FAT16 <32M"),
   (0x05, "Extended"), (0x06, "FAT16"), (0x07, "HPFS/NTFS"), (0x08, "AIX"), (0x09, "AIX bootable"),
   (0x0a, "OS/2 Boot Manager"), (0x0b, "W95 FAT32"), (0x0c, "W95 FAT32 (LBA)"), (0x0e, "W95 FAT16 (LBA)"),
   (0x0f, "W95 Ext'd (LBA)"), (0x10, "OPUS"), (0x11, "Hidden FAT12"), (0x12, "Compaq diagnostics"),
   (0x14, "Hidden FAT16 <32M"), (0x16, "Hidden FAT16"), (0x17, "Hidden HPFS/NTFS"),
   (0x18, "AST SmartSleep"), (0x1b, "Hidden W95 FAT32"), (0x1c, "Hidden W95 FAT32 (LBA)"),
   (0x1e, "Hidden W95 FAT16 (LBA)"), (0x20, "Pintos OS kernel"), (0x21, "Pintos file system"),
   (0x22, "Pintos scratch"), (0x23, "Pintos swap"), (0x24, "NEC DOS"), (0x39, "Plan 9"),
   (0x3c, "PartitionMagic recovery"), (0x40, "Venix 80286"), (0x41, "PPC PReP Boot"), (0x42, "SFS"),
   (0x4d, "QNX4.x"), (0x4e, "QNX4.x 2nd part"), (0x4f, "QNX4.x 3rd part"), (0x50, "OnTrack DM"),
   (0x51, "OnTrack DM6 Aux1"), (0x52, "CP/M"), (0x53, "OnTrack DM6 Aux3"), (0x54, "OnTrackDM6"),
   (0x55, "EZ-Drive"), (0x56, "Golden Bow"), (0x5c, "Priam Edisk"), (0x61, "SpeedStor"),
   (0x63, "GNU HURD or SysV"), (0x64, "Novell Netware 286"), (0x65, "Novell Netware 386"),
   (0x70, "DiskSecure Multi-Boot"), (0x75, "PC/IX"), (0x80, "Old Minix"), (0x81, "Minix / old Linux"),
   (0x82, "Linux swap / Solaris"), (0x83, "Linux"), (0x84, "OS/2 hidden C: drive"),
   (0x85, "Linux extended"), (0x86, "NTFS volume set"), (0x87, "NTFS volume set"),
   (0x88, "Linux plaintext"), (0x8e, "Linux LVM"), (0x93, "Amoeba"), (0x94, "Amoeba BBT"), (0x9f, "BSD/OS"),
   (0xa0, "IBM Thinkpad hibernation"), (0xa5, "FreeBSD"), (0xa6, "OpenBSD"), (0xa7, "NeXTSTEP"),
   (0xa8, "Darwin UFS"), (0xa9, "NetBSD"), (0xab, "Darwin boot"), (0xb7, "BSDI fs"), (0xb8, "BSDI swap"),
   (0xbb, "Boot Wizard hidden"), (0xbe, "Solaris boot"), (0xbf, "Solaris"), (0xc1, "DRDOS/sec (FAT-12)"),
   (0xc4, "DRDOS/sec (FAT-16 < 32M)"), (0xc6, "DRDOS/sec (FAT-16)"), (0xc7, "Syrinx"),
   (0xda, "Non-FS data"), (0xdb, "CP/M / CTOS / ..."), (0xde, "Dell Utility"), (0xdf, "BootIt"),
   (0xe1, "DOS access"), (0xe3, "DOS R/O"), (0xe4, "SpeedStor"), (0xeb, "BeOS fs"), (0xee, "EFI GPT"),
   (0xef, "EFI (FAT-12/16/32)"), (0xf0, "Linux/PA-RISC boot"), (0xf1, "SpeedStor"), (0xf4, "SpeedStor"),
   (0xf2, "DOS secondary"), (0xfd, "Linux raid autodetect"), (0xfe, "LANstep"), (0xff, "BBT")]

/-- `partition_type_name`. -/
def partition_type_name (type : Nat) : String := (type_names.lookup type).getD "Unknown"

/-- The conversion `%02x` of a byte. -/
def hex_byte (n : Nat) : String := String.ofList [Nat.digitChar (n / 16), Nat.digitChar (n % 16)]

/-- The type of the block device for a partition. -/
def block_type_of (part_type : Nat) : block_type :=
  if part_type = 0x20 then .BLOCK_KERNEL
  else if part_type = 0x21 then .BLOCK_FILESYS
  else if part_type = 0x22 then .BLOCK_SCRATCH
  else if part_type = 0x23 then .BLOCK_SWAP
  else .BLOCK_FOREIGN

/-- The block device for a partition; `snprintf` keeps 15 characters of the name. -/
def registered (b : block) (f : Found) : Registered where
  name := String.ofList ((b.name ++ toString f.part_nr).toList.take 15)
  type := block_type_of f.type
  extra_info := partition_type_name f.type ++ " (" ++ hex_byte f.type ++ ")"
  size := f.size
  start := f.start

/-- `found_partition`. -/
def found_partition (b : block) (f : Found) : List Event :=
  if b.size ≤ f.start then
    [.message s!"{b.name}{f.part_nr}: Partition starts past end of device (sector {f.start})\n"]
  else if (f.start + f.size) % 2 ^ 32 < f.start ∨ b.size < (f.start + f.size) % 2 ^ 32 then
    [.message (s!"{b.name}{f.part_nr}: Partition end ({(f.start + f.size) % 2 ^ 32}) past end of device " ++
      s!"({b.size})\n")]
  else [.register (registered b f)]

/-- The entry is empty. -/
def partition_table_entry.is_empty (e : partition_table_entry) : Bool := e.size = 0 ∨ e.type = 0

/-- The type is that of an extended partition. -/
def partition_table_entry.is_extended (e : partition_table_entry) : Bool :=
  e.type = 0x05 ∨ e.type = 0x0f ∨ e.type = 0x85 ∨ e.type = 0xc5

/-- The table that an extended partition in the table of `sector` leads to, with its
primary extended sector. -/
def next_table (sector primary_extended_sector offset : Nat) : Nat × Nat :=
  if sector = 0 then (offset, offset)
  else ((offset + primary_extended_sector) % 2 ^ 32, primary_extended_sector)

/-- The message for an extended partition in the table of `sector`. -/
def extended_message (b : block) (sector : Nat) : Event :=
  .message s!"{b.name}: Extended partition in sector {sector}\n"

/-- The loop of `read_partition_table` over the entries, with their indices; it calls
`read_table` for other tables. -/
def parse_partitions (read_table : Nat → Nat → Nat → Option (Nat × List Event)) (b : block)
    (sector primary_extended_sector : Nat) :
    List (partition_table_entry × Nat) → Nat → Option (Nat × List Event)
  | [], part_nr => some (part_nr, [])
  | (e, i) :: entries, part_nr =>
    if e.is_empty then parse_partitions read_table b sector primary_extended_sector entries part_nr
    else if e.is_extended then do
      let next := next_table sector primary_extended_sector e.offset
      let (part_nr, inner) ← read_table next.1 next.2 part_nr
      let (part_nr, rest) ← parse_partitions read_table b sector primary_extended_sector entries part_nr
      return (part_nr, extended_message b sector :: inner ++ rest)
    else do
      let f : Found := ⟨sector, i, e.type, (e.offset + sector) % 2 ^ 32, e.size, part_nr + 1⟩
      let (part_nr, rest) ← parse_partitions read_table b sector primary_extended_sector entries (part_nr + 1)
      return (part_nr, .found f :: found_partition b f ++ rest)

/-- `read_partition_table`: the part number afterwards, and the trace. The first argument
bounds the depth of the recursion. The sector that is read is sector 0. -/
def read_partition_table : Nat → block → Nat → Nat → Nat → Option (Nat × List Event)
  | 0, _, _, _, _ => none
  | n + 1, b, sector, primary_extended_sector, part_nr =>
    if b.size ≤ sector then
      some (part_nr, [.message s!"{b.name}: Partition table at sector {sector} past end of device.\n"])
    else
      let pt := partition_table.of_bytes (b.sector 0)
      let text :=
        if primary_extended_sector = 0 then s!"{b.name}: Invalid partition table signature\n"
        else s!"{b.name}: Invalid extended partition table in sector {sector}\n"
      if pt.signature ≠ 0xaa55 then some (part_nr, [.read sector 0, .message text])
      else do
        let (part_nr, events) ← parse_partitions (read_partition_table n b) b sector primary_extended_sector
          pt.partitions.zipIdx part_nr
        return (part_nr, .read sector 0 :: events)

/-- `partition_scan`. -/
def partition_scan (n : Nat) (b : block) : Option (List Event) := do
  let (part_nr, events) ← read_partition_table n b 0 0 0
  if part_nr = 0 then return events ++ [.message s!"{b.name}: Device contains no partitions\n"]
  else return events

end pintos.devices
