import RfPirate.Lib.Machine
import RfPirate.Lib.Simulation
import RfPirate.Lib.Ring
import RfPirate.Lib.CString
import RfPirate.Lib.Chain
import RfPirate.Lib.Periodic
import RfPirate.Lib.Bytes
import RfPirate.Lib.Stream
import RfPirate.Lib.Footprint
import RfPirate.Lib.Offering
import RfPirate.Lib.Packets
import RfPirate.Lib.PagedFlash
import RfPirate.Core.System
import RfPirate.Core.EvtHandler
import RfPirate.Core.Delivery
import RfPirate.Core.Timetick
import RfPirate.Core.Si4432
import RfPirate.Core.RfSetters
import RfPirate.Core.UsbSerial
import RfPirate.Core.CmdParser
import RfPirate.Core.SerialPath
import RfPirate.Core.Keypad
import RfPirate.Core.Glcdfont
import RfPirate.Core.Ssd1306
import RfPirate.Core.Panel
import RfPirate.Core.MenuEntry
import RfPirate.Core.Menu
import RfPirate.Core.RfApps
import RfPirate.Core.Ui
import RfPirate.Core.Firmware
import RfPirate.Core.AvrMemory
import RfPirate.Core.Bootloader
import RfPirate.Core.Programmer
import RfPirate.Proofs.EvtQueue
import RfPirate.Proofs.HandlerStack
import RfPirate.Proofs.Delivery
import RfPirate.Proofs.Timetick
import RfPirate.Proofs.Scheduler
import RfPirate.Proofs.RadioIrq
import RfPirate.Proofs.RadioTuning
import RfPirate.Proofs.RadioSetters
import RfPirate.Proofs.Ssd1306
import RfPirate.Proofs.Drawing
import RfPirate.Proofs.Panel
import RfPirate.Proofs.SerialTx
import RfPirate.Proofs.LineEditor
import RfPirate.Proofs.Tokenizer
import RfPirate.Proofs.CmdTable
import RfPirate.Proofs.TypedCommand
import RfPirate.Proofs.SerialPath
import RfPirate.Proofs.SerialMachine
import RfPirate.Proofs.AdcChannel
import RfPirate.Proofs.MenuDraw
import RfPirate.Proofs.MenuPath
import RfPirate.Proofs.MenuDepth
import RfPirate.Proofs.MenuCursor
import RfPirate.Proofs.MenuScreen
import RfPirate.Proofs.MenuHandlers
import RfPirate.Proofs.MenuDisabled
import RfPirate.Proofs.Dropdown
import RfPirate.Proofs.MenuModal
import RfPirate.Proofs.Ui
import RfPirate.Proofs.UiRounds
import RfPirate.Proofs.RfDebug
import RfPirate.Proofs.BatteryIcon
import RfPirate.Proofs.Firmware
import RfPirate.Proofs.FirmwareEvents
import RfPirate.Proofs.FirmwareClock
import RfPirate.Proofs.FirmwareSerial
import RfPirate.Proofs.RegisterDump
import RfPirate.Proofs.FirmwareHardware
import RfPirate.Proofs.FirmwareScreen
import RfPirate.Proofs.Bootloader
import RfPirate.Proofs.BootTimeout
import RfPirate.Proofs.BootMemory
