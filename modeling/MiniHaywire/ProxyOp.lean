import MiniHaywire.Wire

/-!
# The proxy operation codes

The enumeration of `proxy.h`.  The opcode of a request is an arbitrary 64-bit
number; `ProxyOp.ofOpcode` is the enumerator a `switch` on it selects, or `none`
where no label carries that value and the `default` label is taken.
-/

namespace MiniHaywire

inductive ProxyOp where
  -- System functions
  | P_NOP | P_EXIT | P_CALL | P_GET_BOOTARGS | P_GET_BASE | P_SET_BAUD | P_UDELAY
  | P_SET_EXC_GUARD | P_GET_EXC_COUNT | P_EL0_CALL | P_EL1_CALL | P_VECTOR | P_GL1_CALL
  | P_GL2_CALL | P_GET_SIMD_STATE | P_PUT_SIMD_STATE | P_REBOOT | P_SLEEP | P_EL3_CALL
  -- Generic register functions
  | P_WRITE64 | P_WRITE32 | P_WRITE16 | P_WRITE8 | P_READ64 | P_READ32 | P_READ16 | P_READ8
  | P_SET64 | P_SET32 | P_SET16 | P_SET8 | P_CLEAR64 | P_CLEAR32 | P_CLEAR16 | P_CLEAR8
  | P_MASK64 | P_MASK32 | P_MASK16 | P_MASK8 | P_WRITEREAD64 | P_WRITEREAD32 | P_WRITEREAD16
  | P_WRITEREAD8
  -- Memory block transfer functions
  | P_MEMCPY64 | P_MEMCPY32 | P_MEMCPY16 | P_MEMCPY8 | P_MEMSET64 | P_MEMSET32 | P_MEMSET16
  | P_MEMSET8
  -- Cache and memory ops
  | P_IC_IALLUIS | P_IC_IALLU | P_IC_IVAU | P_DC_IVAC | P_DC_ISW | P_DC_CSW | P_DC_CISW
  | P_DC_ZVA | P_DC_CVAC | P_DC_CVAU | P_DC_CIVAC | P_MMU_SHUTDOWN | P_MMU_INIT | P_MMU_DISABLE
  | P_MMU_RESTORE | P_MMU_INIT_SECONDARY
  -- Decompression and data processing ops
  | P_XZDEC | P_GZDEC
  -- SMP and system management ops
  | P_SMP_START_SECONDARIES | P_SMP_CALL | P_SMP_CALL_SYNC | P_SMP_WAIT | P_SMP_SET_WFE_MODE
  | P_SMP_IS_ALIVE | P_SMP_STOP_SECONDARIES | P_SMP_CALL_EL1 | P_SMP_CALL_EL1_SYNC
  | P_SMP_CALL_EL0 | P_SMP_CALL_EL0_SYNC
  -- Heap and memory management ops
  | P_HEAPBLOCK_ALLOC | P_MALLOC | P_MEMALIGN | P_FREE | P_TOP_OF_MEMORY_ALLOC
  -- Kernel boot ops
  | P_KBOOT_BOOT | P_KBOOT_SET_CHOSEN | P_KBOOT_SET_INITRD | P_KBOOT_PREPARE_DT | P_KBOOT_GET_DT
  -- power/clock management ops
  | P_PMGR_POWER_ENABLE | P_PMGR_POWER_DISABLE | P_PMGR_ADT_POWER_ENABLE
  | P_PMGR_ADT_POWER_DISABLE | P_PMGR_RESET
  | P_IODEV_SET_USAGE | P_IODEV_CAN_READ | P_IODEV_CAN_WRITE | P_IODEV_READ | P_IODEV_WRITE
  | P_IODEV_WHOAMI | P_USB_IODEV_VUART_SETUP
  | P_TUNABLES_APPLY_GLOBAL | P_TUNABLES_APPLY_LOCAL | P_TUNABLES_APPLY_LOCAL_ADDR
  | P_DART_INIT | P_DART_SHUTDOWN | P_DART_MAP | P_DART_UNMAP
  | P_HV_INIT | P_HV_MAP | P_HV_START | P_HV_TRANSLATE | P_HV_PT_WALK | P_HV_MAP_VUART
  | P_HV_TRACE_IRQ | P_HV_WDT_START | P_HV_START_SECONDARY | P_HV_SWITCH_CPU
  | P_HV_SET_TIME_STEALING | P_HV_PIN_CPU | P_HV_WRITE_HCR | P_HV_MAP_VIRTIO
  | P_VIRTIO_PUT_BUFFER | P_HV_EXIT_CPU | P_HV_ADD_TIME
  | P_FB_INIT | P_FB_SHUTDOWN | P_FB_BLIT | P_FB_UNBLIT | P_FB_FILL | P_FB_CLEAR
  | P_FB_DISPLAY_LOGO | P_FB_RESTORE_LOGO | P_FB_IMPROVE_LOGO
  | P_PCIE_INIT | P_PCIE_SHUTDOWN
  | P_NVME_INIT | P_NVME_SHUTDOWN | P_NVME_READ | P_NVME_FLUSH
  | P_MCC_GET_CARVEOUTS
  | P_DISPLAY_INIT | P_DISPLAY_CONFIGURE | P_DISPLAY_SHUTDOWN | P_DISPLAY_START_DCP
  | P_DISPLAY_IS_EXTERNAL
  | P_DAPF_INIT_ALL | P_DAPF_INIT
  | P_CPUFREQ_INIT | P_CPUFREQ_PREPARE_BAUD
deriving DecidableEq

namespace ProxyOp

/-- The enumerators in declaration order, with their values. -/
def table : List (Nat × ProxyOp) :=
  [ (0x000, .P_NOP), (0x001, .P_EXIT), (0x002, .P_CALL), (0x003, .P_GET_BOOTARGS),
    (0x004, .P_GET_BASE), (0x005, .P_SET_BAUD), (0x006, .P_UDELAY), (0x007, .P_SET_EXC_GUARD),
    (0x008, .P_GET_EXC_COUNT), (0x009, .P_EL0_CALL), (0x00a, .P_EL1_CALL), (0x00b, .P_VECTOR),
    (0x00c, .P_GL1_CALL), (0x00d, .P_GL2_CALL), (0x00e, .P_GET_SIMD_STATE),
    (0x00f, .P_PUT_SIMD_STATE), (0x010, .P_REBOOT), (0x011, .P_SLEEP), (0x012, .P_EL3_CALL)
  , (0x100, .P_WRITE64), (0x101, .P_WRITE32), (0x102, .P_WRITE16), (0x103, .P_WRITE8),
    (0x104, .P_READ64), (0x105, .P_READ32), (0x106, .P_READ16), (0x107, .P_READ8),
    (0x108, .P_SET64), (0x109, .P_SET32), (0x10a, .P_SET16), (0x10b, .P_SET8),
    (0x10c, .P_CLEAR64), (0x10d, .P_CLEAR32), (0x10e, .P_CLEAR16), (0x10f, .P_CLEAR8),
    (0x110, .P_MASK64), (0x111, .P_MASK32), (0x112, .P_MASK16), (0x113, .P_MASK8),
    (0x114, .P_WRITEREAD64), (0x115, .P_WRITEREAD32), (0x116, .P_WRITEREAD16),
    (0x117, .P_WRITEREAD8)
  , (0x200, .P_MEMCPY64), (0x201, .P_MEMCPY32), (0x202, .P_MEMCPY16), (0x203, .P_MEMCPY8),
    (0x204, .P_MEMSET64), (0x205, .P_MEMSET32), (0x206, .P_MEMSET16), (0x207, .P_MEMSET8)
  , (0x300, .P_IC_IALLUIS), (0x301, .P_IC_IALLU), (0x302, .P_IC_IVAU), (0x303, .P_DC_IVAC),
    (0x304, .P_DC_ISW), (0x305, .P_DC_CSW), (0x306, .P_DC_CISW), (0x307, .P_DC_ZVA),
    (0x308, .P_DC_CVAC), (0x309, .P_DC_CVAU), (0x30a, .P_DC_CIVAC), (0x30b, .P_MMU_SHUTDOWN),
    (0x30c, .P_MMU_INIT), (0x30d, .P_MMU_DISABLE), (0x30e, .P_MMU_RESTORE),
    (0x30f, .P_MMU_INIT_SECONDARY)
  , (0x400, .P_XZDEC), (0x401, .P_GZDEC)
  , (0x500, .P_SMP_START_SECONDARIES), (0x501, .P_SMP_CALL), (0x502, .P_SMP_CALL_SYNC),
    (0x503, .P_SMP_WAIT), (0x504, .P_SMP_SET_WFE_MODE), (0x505, .P_SMP_IS_ALIVE),
    (0x506, .P_SMP_STOP_SECONDARIES), (0x507, .P_SMP_CALL_EL1), (0x508, .P_SMP_CALL_EL1_SYNC),
    (0x509, .P_SMP_CALL_EL0), (0x50a, .P_SMP_CALL_EL0_SYNC)
  , (0x600, .P_HEAPBLOCK_ALLOC), (0x601, .P_MALLOC), (0x602, .P_MEMALIGN), (0x603, .P_FREE),
    (0x604, .P_TOP_OF_MEMORY_ALLOC)
  , (0x700, .P_KBOOT_BOOT), (0x701, .P_KBOOT_SET_CHOSEN), (0x702, .P_KBOOT_SET_INITRD),
    (0x703, .P_KBOOT_PREPARE_DT), (0x704, .P_KBOOT_GET_DT)
  , (0x800, .P_PMGR_POWER_ENABLE), (0x801, .P_PMGR_POWER_DISABLE),
    (0x802, .P_PMGR_ADT_POWER_ENABLE), (0x803, .P_PMGR_ADT_POWER_DISABLE), (0x804, .P_PMGR_RESET)
  , (0x900, .P_IODEV_SET_USAGE), (0x901, .P_IODEV_CAN_READ), (0x902, .P_IODEV_CAN_WRITE),
    (0x903, .P_IODEV_READ), (0x904, .P_IODEV_WRITE), (0x905, .P_IODEV_WHOAMI),
    (0x906, .P_USB_IODEV_VUART_SETUP)
  , (0xa00, .P_TUNABLES_APPLY_GLOBAL), (0xa01, .P_TUNABLES_APPLY_LOCAL),
    (0xa02, .P_TUNABLES_APPLY_LOCAL_ADDR)
  , (0xb00, .P_DART_INIT), (0xb01, .P_DART_SHUTDOWN), (0xb02, .P_DART_MAP), (0xb03, .P_DART_UNMAP)
  , (0xc00, .P_HV_INIT), (0xc01, .P_HV_MAP), (0xc02, .P_HV_START), (0xc03, .P_HV_TRANSLATE),
    (0xc04, .P_HV_PT_WALK), (0xc05, .P_HV_MAP_VUART), (0xc06, .P_HV_TRACE_IRQ),
    (0xc07, .P_HV_WDT_START), (0xc08, .P_HV_START_SECONDARY), (0xc09, .P_HV_SWITCH_CPU),
    (0xc0a, .P_HV_SET_TIME_STEALING), (0xc0b, .P_HV_PIN_CPU), (0xc0c, .P_HV_WRITE_HCR),
    (0xc0d, ProxyOp.P_HV_MAP_VIRTIO), (0xc0e, .P_VIRTIO_PUT_BUFFER), (0xc0f, .P_HV_EXIT_CPU),
    (0xc10, .P_HV_ADD_TIME)
  , (0xd00, .P_FB_INIT), (0xd01, .P_FB_SHUTDOWN), (0xd02, .P_FB_BLIT), (0xd03, .P_FB_UNBLIT),
    (0xd04, .P_FB_FILL), (0xd05, .P_FB_CLEAR), (0xd06, .P_FB_DISPLAY_LOGO),
    (0xd07, .P_FB_RESTORE_LOGO), (0xd08, .P_FB_IMPROVE_LOGO)
  , (0xe00, .P_PCIE_INIT), (0xe01, .P_PCIE_SHUTDOWN)
  , (0xf00, .P_NVME_INIT), (0xf01, .P_NVME_SHUTDOWN), (0xf02, .P_NVME_READ),
    (0xf03, .P_NVME_FLUSH)
  , (0x1000, .P_MCC_GET_CARVEOUTS)
  , (0x1100, .P_DISPLAY_INIT), (0x1101, .P_DISPLAY_CONFIGURE), (0x1102, .P_DISPLAY_SHUTDOWN),
    (0x1103, .P_DISPLAY_START_DCP), (0x1104, .P_DISPLAY_IS_EXTERNAL)
  , (0x1200, .P_DAPF_INIT_ALL), (0x1201, .P_DAPF_INIT)
  , (0x1300, .P_CPUFREQ_INIT), (0x1301, .P_CPUFREQ_PREPARE_BAUD) ]

/-- The label a `switch` on `opcode` jumps to. -/
def ofOpcode (opcode : U64) : Option ProxyOp :=
  (table.find? (fun entry => entry.1 == opcode.toNat)).map Prod.snd

end ProxyOp

end MiniHaywire
