import Cheshire.AddrMap
import Cheshire.AddrMapAgree
import Cheshire.AddrMapFields
import Cheshire.AddrMapProof
import Cheshire.AmoUser
import Cheshire.BootChain
import Cheshire.BootDisk
import Cheshire.BootNextStage
import Cheshire.Bootrom
import Cheshire.Clint
import Cheshire.ClintFreq
import Cheshire.ClintTimer
import Cheshire.Crt0
import Cheshire.Cva6
import Cheshire.Dma
import Cheshire.ElfImage
import Cheshire.ElfLoaderEffect
import Cheshire.ElfLoaderErrors
import Cheshire.ElfLoaderProof
import Cheshire.ElfLoaderReads
import Cheshire.ElfLoaderRun
import Cheshire.FanCtrl
import Cheshire.Gpt
import Cheshire.GptBoot
import Cheshire.GptRun
import Cheshire.GptTable
import Cheshire.I2cEeprom
import Cheshire.I2cEepromAddress
import Cheshire.I2cEepromRead
import Cheshire.I2cEepromWrite
import Cheshire.JtagPreload
import Cheshire.Lib.CrcErrors
import Cheshire.Lib.Device
import Cheshire.Lib.Interrupt
import Cheshire.Lib.Nor
import Cheshire.Lib.Progress
import Cheshire.Lib.RegBlock
import Cheshire.Lib.Scan
import Cheshire.Lib.Serial
import Cheshire.Lib.Session
import Cheshire.Lib.Spill
import Cheshire.Lib.Text
import Cheshire.LlcRemap
import Cheshire.PassiveBoot
import Cheshire.RegFile
import Cheshire.Sections
import Cheshire.SlinkPreload
import Cheshire.SlinkPreloadMem
import Cheshire.SlinkWord
import Cheshire.Smp
import Cheshire.SmpProgress
import Cheshire.Soc
import Cheshire.SocDecode
import Cheshire.SocWiring
import Cheshire.SpiFlashBoot
import Cheshire.SpiFlashRead
import Cheshire.SpiFlashRun
import Cheshire.SpiFlashStore
import Cheshire.SpiSdcard
import Cheshire.SpiSdcardBlock
import Cheshire.SpiSdcardBus
import Cheshire.SpiSdcardBusy
import Cheshire.SpiSdcardCard
import Cheshire.SpiSdcardCheck
import Cheshire.SpiSdcardCmd
import Cheshire.SpiSdcardCrc
import Cheshire.SpiSdcardCrc16
import Cheshire.SpiSdcardCrcWire
import Cheshire.SpiSdcardInit
import Cheshire.SpiSdcardPoll
import Cheshire.SpiSdcardRead
import Cheshire.SpiSdcardRelease
import Cheshire.SpiSdcardReturns
import Cheshire.SpiSdcardStore
import Cheshire.SpiSdcardTalk
import Cheshire.Trap
import Cheshire.UartDebug
import Cheshire.UartDebugProof
import Cheshire.UartLine
import Cheshire.UartPreload
import Cheshire.UartRun
import Cheshire.Zsl
import Cheshire.ZslLaunch
