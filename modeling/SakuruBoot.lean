import SakuruBoot.Common.Selection
import SakuruBoot.Luks.Volume
import SakuruBoot.Luks.Dispatch
import SakuruBoot.Luks.Luks1Format
import SakuruBoot.Luks.Luks2Format
import SakuruBoot.Bios.Fat
import SakuruBoot.Bios.FatChain
import SakuruBoot.Common.BootCount
import SakuruBoot.Common.ConfigBuffers
import SakuruBoot.Common.ConfigFormat
import SakuruBoot.Common.ConfigLines
import SakuruBoot.Common.ConfigSections
import SakuruBoot.Common.KernelTable
import SakuruBoot.Common.LoaderEntry
import SakuruBoot.Common.MenuRuns
import SakuruBoot.Common.Passphrase
import SakuruBoot.Crypto.Argon2Eval
import SakuruBoot.Lib.Memory
import SakuruBoot.Os.BiosLoad
import SakuruBoot.Os.LinuxUefi
import SakuruBoot.Uefi.ConfigRuns
import SakuruBoot.Uefi.Console
import SakuruBoot.Uefi.DiscoveryFacts
import SakuruBoot.Uefi.DiscoveryGlobals
import SakuruBoot.Uefi.DiscoveryLoader
import SakuruBoot.Uefi.EntryNames
import SakuruBoot.Uefi.Ext4
import SakuruBoot.Uefi.Ext4Bounds
import SakuruBoot.Uefi.Ext4Geometry
import SakuruBoot.Uefi.Ext4Image
import SakuruBoot.Uefi.Ext4ImageRead
import SakuruBoot.Uefi.InitrdSearch
import SakuruBoot.Uefi.Main
import SakuruBoot.Bios.FatLimit
import SakuruBoot.Bios.ScanRun
import SakuruBoot.Bios.FatSafety
import SakuruBoot.Luks.Luks2Lookup
import SakuruBoot.Luks.UnlockSafety
import SakuruBoot.Uefi.Ext4Listing
import SakuruBoot.Uefi.Ext4Tree
import SakuruBoot.Uefi.Transparency
import SakuruBoot.Crypto.Argon2Order
import SakuruBoot.Crypto.Blake2bRun
import SakuruBoot.Crypto.Cbc
import SakuruBoot.Crypto.Fips180
import SakuruBoot.Crypto.KdfRun
import SakuruBoot.Crypto.Xts
import SakuruBoot.Luks.Luks1Open
import SakuruBoot.Luks.Base64Bounds
import SakuruBoot.Crypto.HPrimeRun
import SakuruBoot.Lib.BitStream
import SakuruBoot.Luks.Argon2Sizing
import SakuruBoot.Luks.Base64
import SakuruBoot.Bios.MenuShown
import SakuruBoot.Bios.Stage2Boot
import SakuruBoot.Crypto.AesFips
